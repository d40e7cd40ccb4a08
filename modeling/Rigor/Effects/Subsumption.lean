import Mathlib.Order.RelClasses
import Rigor.Effects.Label
import Rigor.Library.Separated

/-!
# Subsumption of labels

The byte tests of `label.rs` against the segments: a bound subsumes the labels whose segments begin
with its own, and these are the labels that have it among their ancestors.
-/

namespace Rigor.Effects.Label

open Rigor.Library.Separated

/-! ## Fronts -/

theorem mem_fronts_iff {front label : Text} :
    front ∈ fronts label ↔ ∃ rest, label = front ++ separator :: rest := by
  induction label generalizing front with
  | nil => simp [fronts]
  | cons c label ih =>
      rw [fronts, List.mem_append, List.mem_map]
      constructor
      · rintro (first | ⟨front, later, rfl⟩)
        · by_cases sep : c = separator
          · rw [if_pos sep, List.mem_singleton] at first
            exact ⟨label, by rw [first, sep, List.nil_append]⟩
          · rw [if_neg sep] at first
            nomatch first
        · rcases ih.mp later with ⟨rest, rfl⟩
          exact ⟨rest, rfl⟩
      · rintro ⟨rest, split⟩
        cases front with
        | nil =>
            rw [List.nil_append, List.cons.injEq] at split
            exact .inl (by rw [if_pos split.1]; exact List.mem_singleton_self _)
        | cons d front =>
            rw [List.cons_append, List.cons.injEq] at split
            exact .inr ⟨front, ih.mpr ⟨rest, split.2⟩, by rw [split.1]⟩

theorem fronts_eq_nil {label : Text} (plain : separator ∉ label) : fronts label = [] := by
  rw [List.eq_nil_iff_forall_not_mem]
  intro front mem
  rcases mem_fronts_iff.mp mem with ⟨rest, rfl⟩
  exact plain (List.mem_append_right _ List.mem_cons_self)

theorem fronts_append (front rest : Text) : fronts (front ++ separator :: rest) =
    fronts front ++ front :: (fronts rest).map (front ++ separator :: ·) := by
  induction front with
  | nil => simp [fronts]
  | cons c front ih => simp [fronts, ih, Function.comp_def]

/-- Cutting at the last separator leaves the longest front. -/
theorem rsplitOnce_fst (label : Text) :
    (Text.rsplitOnce [separator] label).map Prod.fst = (fronts label).getLast? := by
  induction label with
  | nil => rfl
  | cons c label ih =>
      rw [Text.rsplitOnce, fronts]
      cases split : Text.rsplitOnce [separator] label with
      | none =>
          rw [split, Option.map_none] at ih
          rw [List.getLast?_eq_none_iff.mp ih.symm, List.map_nil, List.append_nil]
          by_cases sep : c = separator
          · simp [sep]
          · simp [sep, Ne.symm sep]
      | some parts =>
          rw [split, Option.map_some] at ih
          rw [List.getLast?_append, List.getLast?_map, ← ih]
          rfl

/-! ## Valid labels -/

theorem valid_eq_all (label : Text) : valid label = (label.splitOn separator).all validSegment := by
  rw [valid]
  by_cases empty : label = []
  · rw [if_pos empty, empty]
    rfl
  · rw [if_neg empty]

theorem segments_of_valid {label : Text} (isValid : valid label = true) :
    segments label = label.splitOn separator :=
  if_neg (not_not.mpr isValid)

/-- A front of a valid label ends where a segment does. -/
theorem valid_of_append {front rest : Text} (isValid : valid (front ++ separator :: rest) = true) :
    valid front = true := by
  rw [valid_eq_all, List.splitOn_append_cons_self, List.all_append, Bool.and_eq_true] at isValid
  rw [valid_eq_all]
  exact isValid.1

theorem separator_notMem_of_validSegment {segment : Text} (isValid : validSegment segment = true) :
    separator ∉ segment := by
  cases segment with
  | nil => exact List.not_mem_nil
  | cons first rest =>
      rw [validSegment, Bool.and_eq_true, List.all_eq_true] at isValid
      rw [List.mem_cons, not_or]
      constructor
      · rintro rfl
        exact absurd isValid.1 (by decide)
      · intro mem
        exact absurd (isValid.2 _ mem) (by decide)

theorem valid_of_validSegment {segment : Text} (isValid : validSegment segment = true) :
    valid segment = true := by
  rw [valid_eq_all, List.splitOn_eq_singleton (separator_notMem_of_validSegment isValid),
    List.all_cons, isValid]
  rfl

theorem ancestors_of_valid {label : Text} (isValid : valid label = true) :
    ancestors label = fronts label := by
  rw [ancestors, segments_of_valid isValid]
  by_cases short : (label.splitOn separator).length ≤ 1
  · rcases List.exists_cons_of_ne_nil (List.splitOn_ne_nil separator label) with ⟨first, rest, pieces⟩
    rw [pieces, List.length_cons] at short
    obtain rfl : rest = [] := List.eq_nil_of_length_eq_zero (by omega)
    have whole : [separator].intercalate (label.splitOn separator) = label :=
      List.intercalate_splitOn separator
    rw [pieces, List.intercalate_singleton] at whole
    rw [whole] at pieces
    rw [if_pos (by simp [pieces]), fronts_eq_nil (splitOn_eq_singleton_iff.mp pieces)]
  · rw [if_neg short]

theorem ancestors_of_invalid {label : Text} (malformed : ¬valid label = true) :
    ancestors label = [] := by
  rw [ancestors, segments, if_pos malformed]
  rfl

theorem mem_ancestors_iff {bound label : Text} : bound ∈ ancestors label ↔
    valid label = true ∧ ∃ rest, label = bound ++ separator :: rest := by
  by_cases isValid : valid label = true
  · rw [ancestors_of_valid isValid, mem_fronts_iff]
    exact (and_iff_right isValid).symm
  · rw [ancestors_of_invalid isValid]
    exact iff_of_false List.not_mem_nil (fun both => isValid both.1)

/-! ## The byte test -/

/-- An ASCII byte after a front of a text is the character there. -/
theorem getElem?_bytes_append {a : Char} (ascii : a.val < 128) (front rest : Text) :
    (front ++ rest).bytes[front.len]? = some a.val.toUInt8 ↔ rest.head? = some a := by
  have position : (front ++ rest).bytes[front.len]? = rest.bytes[0]? := by
    rw [Text.bytes, List.flatMap_append, ← Text.bytes, ← Text.bytes, Text.len,
      List.getElem?_append_right (Nat.le_refl _), Nat.sub_self]
  rw [position]
  cases rest with
  | nil => simp [Text.bytes]
  | cons c rest =>
      have first : (Text.bytes (c :: rest))[0]? = (String.utf8EncodeChar c).head? := by
        rw [Text.bytes, List.flatMap_cons, ← List.head?_eq_getElem?, List.head?_append,
          Option.or_of_isSome (List.isSome_head?.mpr String.utf8EncodeChar_ne_nil)]
      rw [first, List.head?_cons, Option.some.injEq]
      constructor
      · intro head
        exact (Text.mem_utf8EncodeChar_iff ascii).mp (List.mem_of_head? head)
      · rintro rfl
        rw [String.utf8EncodeChar_eq_singleton (Text.utf8Size_of_ascii ascii), List.head?_cons]

theorem subsumes_iff {bound label : Text} : subsumes bound label = true ↔
    valid bound = true ∧ valid label = true ∧
      (bound = label ∨ ∃ rest, label = bound ++ separator :: rest) := by
  rw [subsumes]
  by_cases malformed : ¬valid bound ∨ ¬valid label
  · rw [if_pos malformed]
    exact iff_of_false Bool.false_ne_true (fun all => malformed.elim (· all.1) (· all.2.1))
  · rw [if_neg malformed]
    rw [not_or, not_not, not_not] at malformed
    rw [and_iff_right malformed.1, and_iff_right malformed.2]
    by_cases same : bound = label
    · rw [if_pos same]
      exact iff_of_true rfl (.inl same)
    · rw [if_neg same, or_iff_right same, Bool.and_eq_true, Bool.and_eq_true,
        decide_eq_true_eq, decide_eq_true_eq, List.isPrefixOf_iff_prefix]
      constructor
      · rintro ⟨⟨_, rest, rfl⟩, byte⟩
        rcases List.head?_eq_some_iff.mp
          ((getElem?_bytes_append (by decide) bound rest).mp byte) with ⟨rest, rfl⟩
        exact ⟨rest, rfl⟩
      · rintro ⟨rest, rfl⟩
        refine ⟨⟨?_, List.prefix_append _ _⟩, ?_⟩
        · rw [Text.len_append, Text.len_cons]
          have positive : 0 < separator.utf8Size := Char.utf8Size_pos separator
          omega
        · exact (getElem?_bytes_append (by decide) bound _).mpr rfl

theorem subsumes_iff_segments {bound label : Text} : subsumes bound label = true ↔
    valid bound = true ∧ valid label = true ∧ segments bound <+: segments label := by
  rw [subsumes_iff]
  refine and_congr_right fun isBound => and_congr_right fun isLabel => ?_
  rw [segments_of_valid isBound, segments_of_valid isLabel]
  exact splitOn_prefix_iff.symm

theorem subsumes_iff_ancestors {bound label : Text} : subsumes bound label = true ↔
    valid label = true ∧ (bound = label ∨ bound ∈ ancestors label) := by
  rw [subsumes_iff, mem_ancestors_iff]
  constructor
  · rintro ⟨_, isLabel, same | later⟩
    · exact ⟨isLabel, .inl same⟩
    · exact ⟨isLabel, .inr ⟨isLabel, later⟩⟩
  · rintro ⟨isLabel, rfl | ⟨_, rest, rfl⟩⟩
    · exact ⟨isLabel, isLabel, .inl rfl⟩
    · exact ⟨valid_of_append isLabel, isLabel, .inr ⟨rest, rfl⟩⟩

/-! ## The order -/

/-- A well-formed label. -/
structure ValidLabel where
  text : Text
  isValid : valid text = true

theorem ValidLabel.segments_injective {a b : ValidLabel}
    (same : segments a.text = segments b.text) : a = b := by
  rw [segments_of_valid a.isValid, segments_of_valid b.isValid] at same
  cases a
  cases b
  congr
  exact splitOn_injective same

/-- Subsumption orders the labels as their segments are ordered. -/
instance : PartialOrder ValidLabel where
  le bound label := subsumes bound.text label.text = true
  le_refl label := by
    rw [subsumes_iff_segments]
    exact ⟨label.isValid, label.isValid, List.prefix_rfl⟩
  le_trans a b c first second := by
    rw [subsumes_iff_segments] at *
    exact ⟨a.isValid, c.isValid, first.2.2.trans second.2.2⟩
  le_antisymm a b below above := by
    rw [subsumes_iff_segments] at below above
    exact ValidLabel.segments_injective
      (below.2.2.eq_of_length (Nat.le_antisymm below.2.2.length_le above.2.2.length_le))

/-! ## Parents and the root -/

theorem parent_of_valid {label : Text} (isValid : valid label = true) :
    parent label = (fronts label).getLast? := by
  rw [parent, if_neg (not_not.mpr isValid), rsplitOnce_fst]

theorem parent_of_invalid {label : Text} (malformed : ¬valid label = true) :
    parent label = none :=
  if_pos malformed

/-- The ancestors of a label are those of its parent and the parent. -/
theorem ancestors_of_parent {label above : Text} (isParent : parent label = some above) :
    ancestors label = ancestors above ++ [above] := by
  have isValid : valid label = true := by
    by_contra malformed
    rw [parent_of_invalid malformed] at isParent
    nomatch isParent
  rw [parent_of_valid isValid] at isParent
  rcases mem_fronts_iff.mp (List.mem_of_getLast? isParent) with ⟨rest, rfl⟩
  rw [ancestors_of_valid isValid, ancestors_of_valid (valid_of_append isValid), fronts_append]
  rw [fronts_append, List.getLast?_append_of_ne_nil _ (List.cons_ne_nil _ _)] at isParent
  cases inner : fronts rest with
  | nil => rfl
  | cons front later =>
      rw [inner, List.map_cons, List.getLast?_cons_cons] at isParent
      have mem : above ∈ (front :: later).map (above ++ separator :: ·) :=
        List.mem_of_getLast? isParent
      rcases List.mem_map.mp mem with ⟨deeper, _, same⟩
      have longer := congrArg List.length same
      rw [List.length_append, List.length_cons] at longer
      omega

theorem ancestors_eq_nil {label : Text} (isRoot : parent label = none) : ancestors label = [] := by
  by_cases isValid : valid label = true
  · rw [parent_of_valid isValid] at isRoot
    rw [ancestors_of_valid isValid, List.getLast?_eq_none_iff.mp isRoot]
  · exact ancestors_of_invalid isValid

/-- The label so many parents up. -/
def nthParent : Nat → Text → Option Text
  | 0, label => some label
  | n + 1, label => (parent label).bind (nthParent n)

/-- The parents, one after the other, are the ancestors from the innermost on. -/
theorem nthParent_succ (n : Nat) (label : Text) :
    nthParent (n + 1) label = (ancestors label).reverse[n]? := by
  induction n generalizing label with
  | zero =>
      rw [nthParent]
      cases isParent : parent label with
      | none =>
          rw [ancestors_eq_nil isParent]
          rfl
      | some above =>
          rw [ancestors_of_parent isParent, List.reverse_append]
          rfl
  | succ n ih =>
      rw [nthParent]
      cases isParent : parent label with
      | none =>
          rw [ancestors_eq_nil isParent]
          rfl
      | some above =>
          rw [Option.bind_some, ih, ancestors_of_parent isParent, List.reverse_append]
          rfl

/-- The root of a label is its first segment, a label of its own. -/
theorem root_of_valid {label : Text} (isValid : valid label = true) :
    ∃ first, root label = some first ∧ segments first = [first] ∧ subsumes first label = true := by
  rcases List.exists_cons_of_ne_nil (List.splitOn_ne_nil separator label) with ⟨first, rest, pieces⟩
  have firstSegment : validSegment first = true := by
    rw [valid_eq_all, pieces, List.all_cons, Bool.and_eq_true] at isValid
    exact isValid.1
  have firstValid := valid_of_validSegment firstSegment
  have single : segments first = [first] := by
    rw [segments_of_valid firstValid]
    exact splitOn_eq_singleton_iff.mpr (separator_notMem_of_validSegment firstSegment)
  refine ⟨first, ?_, single, subsumes_iff_segments.mpr ⟨firstValid, isValid, ?_⟩⟩
  · rw [root, segments_of_valid isValid, pieces, List.head?_cons]
  · rw [single, segments_of_valid isValid, pieces]
    exact ⟨rest, rfl⟩

/-- The root subsumes every label of its segments. -/
theorem root_subsumes {label : Text} (isValid : valid label = true) :
    ∃ first, root label = some first ∧ subsumes first label = true ∧
      ∀ above ∈ ancestors label, subsumes first above = true := by
  rcases root_of_valid isValid with ⟨first, isRoot, single, admitsLabel⟩
  refine ⟨first, isRoot, admitsLabel, ?_⟩
  intro above mem
  have admits : subsumes above label = true :=
    subsumes_iff_ancestors.mpr ⟨isValid, .inr mem⟩
  rw [subsumes_iff_segments] at admits admitsLabel ⊢
  refine ⟨admitsLabel.1, admits.1, ?_⟩
  have nonempty : segments above ≠ [] := by
    rw [segments_of_valid admits.1]
    exact List.splitOn_ne_nil _ _
  have short : (segments first).length ≤ (segments above).length := by
    rw [single]
    exact List.length_pos_iff.mpr nonempty
  exact List.prefix_of_prefix_length_le admitsLabel.2.2 admits.2.2 short

/--
Subsumption is a partial order on the valid labels, the one of their segments.  A label is subsumed
by itself and by its ancestors, which are its parent, the parent of that and so on, and its root
subsumes them all.
-/
theorem subsumption_laws :
    IsPartialOrder ValidLabel (fun bound label => subsumes bound.text label.text = true) ∧
    (∀ bound label, (subsumes bound label = true ↔
        valid bound = true ∧ valid label = true ∧ segments bound <+: segments label) ∧
      (subsumes bound label = true ↔
        valid label = true ∧ (bound = label ∨ bound ∈ ancestors label))) ∧
    (∀ label n, (ancestors label).reverse[n]? = nthParent (n + 1) label) ∧
    ∀ label, valid label = true → ∃ first, root label = some first ∧
      subsumes first label = true ∧ ∀ above ∈ ancestors label, subsumes first above = true := by
  refine ⟨inferInstanceAs (IsPartialOrder ValidLabel (· ≤ ·)), ?_, ?_, ?_⟩
  · exact fun bound label => ⟨subsumes_iff_segments, subsumes_iff_ancestors⟩
  · exact fun label n => (nthParent_succ n label).symm
  · exact fun label isValid => root_subsumes isValid

end Rigor.Effects.Label
