import Rigor.Infer.FoldPanics
import Rigor.Library.Occurrences

/-!
# String lookups against `String`

The answers of `fold_str_lookup` on ASCII strings against those of `String`, stated on the list of
characters.
-/

namespace Rigor.Infer

open Rigor.Rust Rigor.Types Rigor.Library.Occurrences

/-! ## Searching ASCII text -/

section Search

variable {needle text : Text} {p : Nat}

theorem find_eq_some_iff (ascii : text.isAscii = true) : Text.find needle text = some p ↔
    OccursAt needle text p ∧ ∀ r, OccursAt needle text r → p ≤ r := by
  induction text generalizing p with
  | nil =>
      rw [Text.find]
      simp only [occursAt_nil_iff]
      split
      · rename_i empty
        simp [empty, eq_comm]
      · rename_i notEmpty
        simp [notEmpty]
  | cons c rest ih =>
      rw [Text.isAscii_cons] at ascii
      rw [Text.find]
      split
      · rename_i isPrefix
        have here : OccursAt needle (c :: rest) 0 :=
          occursAt_zero_iff.mpr (List.isPrefixOf_iff_prefix.mp isPrefix)
        constructor
        · rintro ⟨⟩
          exact ⟨here, fun r _ => Nat.zero_le r⟩
        · rintro ⟨_, first⟩
          rw [Nat.le_zero.mp (first 0 here)]
      · rename_i notPrefix
        have absent : ¬OccursAt needle (c :: rest) 0 := fun here =>
          notPrefix (List.isPrefixOf_iff_prefix.mpr (occursAt_zero_iff.mp here))
        rw [Text.utf8Size_of_ascii ascii.1, Option.map_eq_some_iff]
        constructor
        · rintro ⟨q, found, rfl⟩
          have inRest := (ih ascii.2).mp found
          rw [Nat.add_comm, occursAt_succ_iff]
          refine ⟨inRest.1, fun r occurs => ?_⟩
          cases r with
          | zero => exact absurd occurs absent
          | succ r => exact Nat.succ_le_succ (inRest.2 r ((occursAt_succ_iff c).mp occurs))
        · rintro ⟨occurs, first⟩
          cases p with
          | zero => exact absurd occurs absent
          | succ p =>
              refine ⟨p, (ih ascii.2).mpr ⟨(occursAt_succ_iff c).mp occurs, ?_⟩, Nat.add_comm 1 p⟩
              intro r later
              exact Nat.succ_le_succ_iff.mp (first (r + 1) ((occursAt_succ_iff c).mpr later))

theorem not_occursAt_of_rfind (none_ : Text.rfind needle text = none) :
    ∀ r, ¬OccursAt needle text r := by
  induction text with
  | nil =>
      rw [Text.rfind] at none_
      split at none_
      · nomatch none_
      · rename_i notEmpty
        exact fun r occurs => notEmpty (occursAt_nil_iff.mp occurs).2
  | cons c rest ih =>
      rw [Text.rfind] at none_
      split at none_
      · nomatch none_
      · rename_i absent
        split at none_
        · nomatch none_
        · rename_i notPrefix
          intro r occurs
          cases r with
          | zero =>
              exact notPrefix (List.isPrefixOf_iff_prefix.mpr (occursAt_zero_iff.mp occurs))
          | succ r => exact ih absent r ((occursAt_succ_iff c).mp occurs)

theorem rfind_eq_some_iff (ascii : text.isAscii = true) : Text.rfind needle text = some p ↔
    OccursAt needle text p ∧ ∀ r, OccursAt needle text r → r ≤ p := by
  induction text generalizing p with
  | nil =>
      rw [Text.rfind]
      simp only [occursAt_nil_iff]
      split
      · rename_i empty
        simp [empty, eq_comm]
      · rename_i notEmpty
        simp [notEmpty]
  | cons c rest ih =>
      rw [Text.isAscii_cons] at ascii
      have step : ∀ r, OccursAt needle (c :: rest) (r + 1) ↔ OccursAt needle rest r :=
        fun r => occursAt_succ_iff c
      rw [Text.rfind]
      split
      · rename_i q found
        have inRest := (ih ascii.2).mp found
        rw [Text.utf8Size_of_ascii ascii.1, Nat.add_comm]
        have last : ∀ r, OccursAt needle (c :: rest) r → r ≤ q + 1 := by
          intro r occurs
          cases r with
          | zero => exact Nat.zero_le _
          | succ r => exact Nat.succ_le_succ (inRest.2 r ((step r).mp occurs))
        constructor
        · rintro ⟨⟩
          exact ⟨(step q).mpr inRest.1, last⟩
        · rintro ⟨occurs, greatest⟩
          rw [Nat.le_antisymm (last p occurs) (greatest (q + 1) ((step q).mpr inRest.1))]
      · rename_i absent
        have onlyHere : ∀ r, OccursAt needle (c :: rest) r → r = 0 := by
          intro r occurs
          cases r with
          | zero => rfl
          | succ r => exact absurd ((step r).mp occurs) (not_occursAt_of_rfind absent r)
        split
        · rename_i isPrefix
          have here : OccursAt needle (c :: rest) 0 :=
            occursAt_zero_iff.mpr (List.isPrefixOf_iff_prefix.mp isPrefix)
          constructor
          · rintro ⟨⟩
            exact ⟨here, fun r occurs => Nat.le_of_eq (onlyHere r occurs)⟩
          · rintro ⟨occurs, _⟩
            rw [onlyHere p occurs]
        · rename_i notPrefix
          apply iff_of_false (Option.some_ne_none p).symm
          rintro ⟨occurs, _⟩
          rw [onlyHere p occurs, occursAt_zero_iff] at occurs
          exact notPrefix (List.isPrefixOf_iff_prefix.mpr occurs)

end Search

/-! ## The answers of `String` -/

/-- An ASCII string of the source. -/
structure AsciiText where
  chars : Text
  ascii : chars.isAscii = true
  small : chars.len < 2 ^ 63

/-- The lookups on a string; the offset of a search may be left out. -/
inductive Lookup where
  | char (i : Int64)
  | substr (start count : Int64)
  | getByte (i : Int64)
  | index (sub : AsciiText) (offset : Option Int64)
  | rindex (sub : AsciiText) (start : Option Int64)

namespace Lookup

def methods : Lookup → List String
  | .char _ | .substr _ _ => ["[]", "slice", "byteslice"]
  | .getByte _ => ["getbyte"]
  | .index _ _ => ["index", "byteindex"]
  | .rindex _ _ => ["rindex", "byterindex"]

def args : Lookup → List Scalar
  | .char i => [.int i]
  | .substr start count => [.int start, .int count]
  | .getByte i => [.int i]
  | .index sub offset => .str sub.chars :: (offset.map Scalar.int).toList
  | .rindex sub start => .str sub.chars :: (start.map Scalar.int).toList

/-- The position of an index: a negative one counts from the end. -/
def position (text : Text) (i : Int64) : Int :=
  if i.toInt < 0 then i.toInt + text.length else i.toInt

/-- A position or `nil`. -/
def foundAt : Option Nat → Scalar
  | some p => .int (asI64 p)
  | none => .nil

/-- The answer of `String`, on the characters. -/
def answer (text : Text) : Lookup → Scalar
  | .char i =>
      let p := position text i
      if 0 ≤ p ∧ p < text.length then .str ((text.drop p.toNat).take 1) else .nil
  | .substr start count =>
      let p := position text start
      if 0 ≤ count.toInt ∧ 0 ≤ p ∧ p ≤ text.length then
        .str ((text.drop p.toNat).take count.toInt.toNat)
      else .nil
  | .getByte i =>
      let p := position text i
      if 0 ≤ p then
        match text[p.toNat]? with
        | some c => .int (asI64 c.toNat)
        | none => .nil
      else .nil
  | .index sub offset =>
      let p := (offset.map (position text)).getD 0
      if 0 ≤ p ∧ p ≤ text.length then foundAt (firstFrom sub.chars text p.toNat) else .nil
  | .rindex sub start =>
      let p := (start.map (position text)).getD text.length
      if 0 ≤ p then foundAt (lastUpTo sub.chars text (min p.toNat text.length)) else .nil

end Lookup

/-! ## The lookups -/

section Answers

variable (text : AsciiText)

theorem fromEnd_position (i : Int64) :
    ∃ j, fromEnd i (asI64 text.chars.len) = .ok j ∧ j.toInt = Lookup.position text.chars i := by
  rcases fromEnd_spec i text.small with ⟨j, wrapped, exact⟩
  refine ⟨j, wrapped, ?_⟩
  rw [exact, Lookup.position, Text.len_of_ascii text.ascii]

theorem charAt_eq (i : Int64) :
    charAt text.chars i = .ok (Lookup.answer text.chars (.char i)) := by
  rcases fromEnd_position text i with ⟨j, wrapped, exact⟩
  have length := Text.len_of_ascii text.ascii
  have lenInt := toInt_asI64 text.small
  simp only [charAt, wrapped, bind, Except.bind, Lookup.answer, ← exact]
  by_cases inRange : 0 ≤ j.toInt ∧ j.toInt < text.chars.length
  · have guarded : 0 ≤ j ∧ j < asI64 text.chars.len := by
      rw [Int64.le_iff_toInt_le, Int64.lt_iff_toInt_lt, lenInt, length]
      exact inRange
    have index := asUsize_eq inRange.1
    have small := text.small
    have next : addUsize (asUsize j) 1 = .ok (asUsize j + 1) := if_pos (by omega)
    have sliced : text.chars.slice (asUsize j) (asUsize j + 1) =
        .ok ((text.chars.take (asUsize j + 1)).drop (asUsize j)) :=
      Text.slice_of_ascii text.ascii (Nat.le_succ _) (by omega)
    have start : j.toInt.toNat = asUsize j := by omega
    rw [if_pos guarded, if_pos inRange, next, start]
    simp only [sliced, List.drop_take, Nat.add_sub_cancel_left]
    rfl
  · have outside : ¬(0 ≤ j ∧ j < asI64 text.chars.len) := by
      rw [Int64.le_iff_toInt_le, Int64.lt_iff_toInt_lt, lenInt, length]
      exact inRange
    rw [if_neg outside, if_neg inRange]
    rfl

theorem substr_eq (start count : Int64) :
    substr text.chars start count = .ok (Lookup.answer text.chars (.substr start count)) := by
  rcases fromEnd_position text start with ⟨j, wrapped, exact⟩
  have length := Text.len_of_ascii text.ascii
  have lenInt := toInt_asI64 text.small
  simp only [substr, wrapped, bind, Except.bind, Lookup.answer, ← exact]
  by_cases inRange : 0 ≤ count.toInt ∧ 0 ≤ j.toInt ∧ j.toInt ≤ text.chars.length
  · have guarded : ¬(count < 0 ∨ j < 0 ∨ j > asI64 text.chars.len) := by
      rw [gt_iff_lt, Int64.lt_iff_toInt_lt, Int64.lt_iff_toInt_lt, Int64.lt_iff_toInt_lt, lenInt,
        length]
      have zero : (0 : Int64).toInt = 0 := rfl
      omega
    have startIndex := asUsize_eq inRange.2.1
    have stopInt := toInt_min (saturatingAdd j count) (asI64 text.chars.len)
    rw [toInt_saturatingAdd inRange.2.1 inRange.1, lenInt] at stopInt
    have small := text.small
    rw [if_neg guarded, if_pos inRange]
    generalize min (saturatingAdd j count) (asI64 text.chars.len) = stop at stopInt
    have stopIndex : asUsize stop = stop.toInt := asUsize_eq (by omega)
    have sliced : text.chars.slice (asUsize j) (asUsize stop) =
        .ok ((text.chars.take (asUsize stop)).drop (asUsize j)) :=
      Text.slice_of_ascii text.ascii (by omega) (by omega)
    have position : j.toInt.toNat = asUsize j := by omega
    have same : (text.chars.take (asUsize stop)).drop (asUsize j) =
        (text.chars.drop (asUsize j)).take count.toInt.toNat := by
      rw [List.drop_take, List.take_eq_take_iff, List.length_drop]
      omega
    rw [sliced, same, position]
    rfl
  · have outside : count < 0 ∨ j < 0 ∨ j > asI64 text.chars.len := by
      rw [gt_iff_lt, Int64.lt_iff_toInt_lt, Int64.lt_iff_toInt_lt, Int64.lt_iff_toInt_lt, lenInt,
        length]
      have zero : (0 : Int64).toInt = 0 := rfl
      omega
    rw [if_pos outside, if_neg inRange]
    rfl

theorem bytes_of_ascii {text : Text} (ascii : text.isAscii = true) :
    Text.bytes text = text.map fun c => c.val.toUInt8 := by
  induction text with
  | nil => rfl
  | cons c rest ih =>
      rw [Text.isAscii_cons] at ascii
      have one := String.utf8EncodeChar_eq_singleton (Text.utf8Size_of_ascii ascii.1)
      have inner := ih ascii.2
      rw [Text.bytes] at inner ⊢
      rw [List.flatMap_cons, one, inner]
      rfl

theorem getByte_eq (i : Int64) :
    getByte text.chars i = .ok (Lookup.answer text.chars (.getByte i)) := by
  rcases fromEnd_position text i with ⟨j, wrapped, exact⟩
  have length := Text.len_of_ascii text.ascii
  have lenInt := toInt_asI64 text.small
  simp only [getByte, wrapped, bind, Except.bind, Lookup.answer, ← exact]
  by_cases inRange : 0 ≤ j.toInt ∧ j.toInt < text.chars.length
  · have guarded : 0 ≤ j ∧ j < asI64 text.chars.len := by
      rw [Int64.le_iff_toInt_le, Int64.lt_iff_toInt_lt, lenInt, length]
      exact inRange
    have index := asUsize_eq inRange.1
    have start : j.toInt.toNat = asUsize j := by omega
    have inside : asUsize j < text.chars.length := by omega
    have isAscii : text.chars[asUsize j].val < 128 := by
      have all := text.ascii
      rw [Text.isAscii, List.all_eq_true] at all
      simpa using all _ (List.getElem_mem inside)
    have found : text.chars.byteAt (asUsize j) = .ok text.chars[asUsize j].val.toUInt8 := by
      rw [Text.byteAt, bytes_of_ascii text.ascii, List.getElem?_map,
        List.getElem?_eq_getElem inside]
      rfl
    have byte : text.chars[asUsize j].val.toUInt8.toNat = text.chars[asUsize j].toNat := by
      rw [UInt32.toNat_toUInt8, Nat.mod_eq_of_lt]
      · rfl
      · exact Nat.lt_trans (UInt32.lt_iff_toNat_lt.mp isAscii) (by decide)
    rw [if_pos guarded, if_pos inRange.1, found, start, List.getElem?_eq_getElem inside]
    simp only [byte]
    rfl
  · have outside : ¬(0 ≤ j ∧ j < asI64 text.chars.len) := by
      rw [Int64.le_iff_toInt_le, Int64.lt_iff_toInt_lt, lenInt, length]
      exact inRange
    rw [if_neg outside]
    split
    · rename_i nonneg
      have absent : text.chars[j.toInt.toNat]? = none := by
        rw [List.getElem?_eq_none_iff]
        omega
      rw [absent]
      rfl
    · rfl

variable (sub : AsciiText)

theorem find_eq_firstFrom : Text.find sub.chars text.chars = firstFrom sub.chars text.chars 0 := by
  apply Option.ext
  intro p
  rw [find_eq_some_iff text.ascii, firstFrom_eq_some_iff]
  simp

theorem indexFrom_eq (offset : Int64) :
    indexFrom text.chars sub.chars offset =
      .ok (Lookup.answer text.chars (.index sub (some offset))) := by
  rcases fromEnd_position text offset with ⟨j, wrapped, exact⟩
  have length := Text.len_of_ascii text.ascii
  have lenInt := toInt_asI64 text.small
  simp only [indexFrom, wrapped, bind, Except.bind, Lookup.answer, Option.map_some,
    Option.getD_some, ← exact]
  by_cases inRange : 0 ≤ j.toInt ∧ j.toInt ≤ text.chars.length
  · have guarded : 0 ≤ j ∧ j ≤ asI64 text.chars.len := by
      rw [Int64.le_iff_toInt_le, Int64.le_iff_toInt_le, lenInt, length]
      exact inRange
    have index := asUsize_eq inRange.1
    have small := text.small
    have start : j.toInt.toNat = asUsize j := by omega
    have inside : asUsize j ≤ text.chars.length := by omega
    have sliced : text.chars.slice (asUsize j) text.chars.len = .ok (text.chars.drop (asUsize j)) := by
      rw [Text.slice_of_ascii text.ascii (by omega) (by omega), length, List.take_length]
    have ascii := Text.isAscii_drop text.ascii (asUsize j)
    have searched : firstFrom sub.chars text.chars (asUsize j) =
        (Text.find sub.chars (text.chars.drop (asUsize j))).map (asUsize j + ·) := by
      apply Option.ext
      intro p
      rw [firstFrom_eq_some_iff, Option.map_eq_some_iff]
      constructor
      · rintro ⟨later, occurs, first⟩
        rcases Nat.exists_eq_add_of_le later with ⟨q, rfl⟩
        refine ⟨q, (find_eq_some_iff ascii).mpr ⟨(occursAt_drop_iff inside).mpr occurs, ?_⟩, rfl⟩
        intro r other
        have bound := first (asUsize j + r) (Nat.le_add_right _ _)
          ((occursAt_drop_iff inside).mp other)
        omega
      · rintro ⟨q, found, rfl⟩
        rw [find_eq_some_iff ascii, occursAt_drop_iff inside] at found
        refine ⟨Nat.le_add_right _ _, found.1, fun r later other => ?_⟩
        rcases Nat.exists_eq_add_of_le later with ⟨s, rfl⟩
        exact Nat.add_le_add_left (found.2 s ((occursAt_drop_iff inside).mpr other)) _
    rw [if_pos guarded, if_pos inRange, sliced, start, searched]
    dsimp only
    cases found : Text.find sub.chars (text.chars.drop (asUsize j)) with
    | none => rfl
    | some p =>
        have fits := ((find_eq_some_iff ascii).mp found).1.1
        rw [List.length_drop] at fits
        have next : addUsize (asUsize j) p = .ok (asUsize j + p) := if_pos (by omega)
        simp only [next]
        rfl
  · have outside : ¬(0 ≤ j ∧ j ≤ asI64 text.chars.len) := by
      rw [Int64.le_iff_toInt_le, Int64.le_iff_toInt_le, lenInt, length]
      exact inRange
    rw [if_neg outside, if_neg inRange]
    rfl

theorem rindexUpTo_eq (start : Int64) (low : 0 ≤ start.toInt)
    (fits : sub.chars.len ≤ text.chars.len → start.toInt + sub.chars.len < 2 ^ 63) :
    rindexUpTo text.chars sub.chars start =
      .ok (Lookup.foundAt (lastUpTo sub.chars text.chars start.toInt.toNat)) := by
  have length := Text.len_of_ascii text.ascii
  have subLength := Text.len_of_ascii sub.ascii
  have lenInt := toInt_asI64 text.small
  have slenInt := toInt_asI64 sub.small
  simp only [rindexUpTo, bind, Except.bind]
  split
  · rename_i longer
    rw [gt_iff_lt, Int64.lt_iff_toInt_lt, lenInt, slenInt] at longer
    have absent : lastUpTo sub.chars text.chars start.toInt.toNat = none := by
      apply Option.eq_none_iff_forall_ne_some.mpr
      intro p found
      have inside := (lastUpTo_eq_some_iff.mp found).2.1.fits
      omega
    rw [absent]
    rfl
  · rename_i shorter
    rw [gt_iff_lt, Int64.lt_iff_toInt_lt, lenInt, slenInt] at shorter
    have bound := fits (by omega)
    rcases add_eq_ok (a := start) (b := asI64 sub.chars.len) (by omega) (by omega) with
      ⟨sum, summed, exact⟩
    have stopInt := toInt_min sum (asI64 text.chars.len)
    simp only [summed]
    generalize min sum (asI64 text.chars.len) = stop at stopInt
    have stopIndex : asUsize stop = stop.toInt := asUsize_eq (by omega)
    have inside : asUsize stop ≤ text.chars.length := by omega
    have sliced : text.chars.slice 0 (asUsize stop) = .ok (text.chars.take (asUsize stop)) :=
      Text.slice_of_ascii text.ascii (Nat.zero_le _) inside
    have ascii := Text.isAscii_take text.ascii (asUsize stop)
    -- A match ends before `stop` if and only if it starts at or before `start`.
    have within : ∀ r, OccursAt sub.chars (text.chars.take (asUsize stop)) r ↔
        r ≤ start.toInt.toNat ∧ OccursAt sub.chars text.chars r := by
      intro r
      rw [occursAt_take_iff inside]
      constructor
      · rintro ⟨occurs, ends⟩
        exact ⟨by omega, occurs⟩
      · rintro ⟨before, occurs⟩
        have ends := occurs.fits
        exact ⟨occurs, by omega⟩
    have searched : Text.rfind sub.chars (text.chars.take (asUsize stop)) =
        lastUpTo sub.chars text.chars start.toInt.toNat := by
      apply Option.ext
      intro p
      rw [rfind_eq_some_iff ascii, lastUpTo_eq_some_iff, within, and_assoc]
      apply and_congr_right
      intro _
      apply and_congr_right
      intro _
      exact forall_congr' fun r => by rw [within, and_imp]
    rw [sliced]
    simp only [searched]
    cases lastUpTo sub.chars text.chars start.toInt.toNat with
    | none => rfl
    | some p => rfl

theorem rindex_eq (start : Option Int64)
    (fits : ∀ p, searchStart text.chars.len (start.map Scalar.int).toList = some p →
      sub.chars.len ≤ text.chars.len → p + sub.chars.len < 2 ^ 63) :
    rindex text.chars sub.chars (start.map Scalar.int).toList =
      .ok (some (Lookup.answer text.chars (.rindex sub start))) := by
  have length := Text.len_of_ascii text.ascii
  have lenInt := toInt_asI64 text.small
  cases start with
  | none =>
      have whole := rindexUpTo_eq text sub (asI64 text.chars.len) (by omega)
        (by rw [lenInt]; exact fits _ rfl)
      have position : (asI64 text.chars.len).toInt.toNat = text.chars.length := by omega
      rw [position] at whole
      simp only [Option.map_none, Option.toList_none, rindex, whole, bind, Except.bind,
        Lookup.answer, Option.getD_none, Int.natCast_nonneg, if_true, Int.toNat_natCast,
        Nat.min_self]
      rfl
  | some i =>
      rcases fromEnd_position text i with ⟨j, wrapped, exact⟩
      have started : searchStart text.chars.len [Scalar.int i] =
          if j.toInt < 0 then none else some (min j.toInt text.chars.len) := by
        rw [exact, Lookup.position, ← length]
        rfl
      simp only [Option.map_some, Option.toList_some, rindex, wrapped, ok_bind, Lookup.answer,
        Option.getD_some, ← exact] at fits ⊢
      by_cases negative : j.toInt < 0
      · have below : j < 0 := Int64.lt_iff_toInt_lt.mpr negative
        rw [if_pos below, if_neg (by omega)]
        rfl
      · have above : ¬j < 0 := fun below => negative (Int64.lt_iff_toInt_lt.mp below)
        rw [started, if_neg negative] at fits
        have clamped := toInt_min j (asI64 text.chars.len)
        have found := rindexUpTo_eq text sub (min j (asI64 text.chars.len)) (by omega)
          (by rw [clamped, lenInt]; exact fits _ rfl)
        have position : (min j (asI64 text.chars.len)).toInt.toNat =
            min j.toInt.toNat text.chars.length := by omega
        rw [if_neg above, if_pos (by omega), found, position]
        rfl

end Answers

theorem Lookup.args_representable (lookup : Lookup) :
    ∀ arg ∈ lookup.args, Representable arg := by
  have ints : ∀ found : Option Int64, ∀ arg ∈ (found.map Scalar.int).toList,
      Representable arg := by
    intro found arg mem
    cases found with
    | none => nomatch mem
    | some i =>
        rw [List.mem_singleton.mp mem]
        trivial
  cases lookup with
  | char i => simp [Lookup.args, Representable]
  | substr start count => simp [Lookup.args, Representable]
  | getByte i => simp [Lookup.args, Representable]
  | index sub offset =>
      intro arg mem
      rcases List.mem_cons.mp mem with rfl | inRest
      · exact sub.small
      · exact ints offset arg inRest
  | rindex sub start =>
      intro arg mem
      rcases List.mem_cons.mp mem with rfl | inRest
      · exact sub.small
      · exact ints start arg inRest

/-- The arm of `fold_str_lookup` that a lookup takes. -/
def Lookup.arm (text : Text) : Lookup → Folded
  | .char i => (charAt text i).map some
  | .substr start count => (Infer.substr text start count).map some
  | .getByte i => (Infer.getByte text i).map some
  | .index sub none => .ok (some (foundAt (Text.find sub.chars text)))
  | .index sub (some offset) => (indexFrom text sub.chars offset).map some
  | .rindex sub start => Infer.rindex text sub.chars (start.map Scalar.int).toList

theorem foldStrLookup_lookup (text : AsciiText) (lookup : Lookup) {method : String}
    (named : method ∈ lookup.methods) :
    foldStrLookup text.chars method lookup.args = lookup.arm text.chars := by
  cases lookup with
  | char i =>
      simp only [Lookup.methods, List.mem_cons, List.not_mem_nil, or_false] at named
      rw [Lookup.args, Lookup.arm]
      rcases named with rfl | rfl | rfl
      all_goals
        rw [foldStrLookup, if_neg (not_not.mpr text.ascii)]
        rfl
  | substr start count =>
      simp only [Lookup.methods, List.mem_cons, List.not_mem_nil, or_false] at named
      rw [Lookup.args, Lookup.arm]
      rcases named with rfl | rfl | rfl
      all_goals
        rw [foldStrLookup, if_neg (not_not.mpr text.ascii)]
        rfl
  | getByte i =>
      rw [Lookup.args, Lookup.arm, List.mem_singleton.mp named, foldStrLookup,
        if_neg (not_not.mpr text.ascii)]
      rfl
  | index sub offset =>
      simp only [Lookup.methods, List.mem_cons, List.not_mem_nil, or_false] at named
      cases offset with
      | none =>
          rw [Lookup.args, Option.map_none, Option.toList_none, Lookup.arm]
          rcases named with rfl | rfl
          all_goals
            rw [foldStrLookup, if_neg (not_not.mpr text.ascii)]
            rw [if_pos sub.ascii]
            cases Text.find sub.chars text.chars <;> rfl
      | some offset =>
          rw [Lookup.args, Option.map_some, Option.toList_some, Lookup.arm]
          rcases named with rfl | rfl
          all_goals
            rw [foldStrLookup, if_neg (not_not.mpr text.ascii)]
            rw [if_pos sub.ascii]
            rfl
  | rindex sub start =>
      simp only [Lookup.methods, List.mem_cons, List.not_mem_nil, or_false] at named
      rw [Lookup.args, Lookup.arm]
      rcases named with rfl | rfl
      all_goals
        rw [foldStrLookup, if_neg (not_not.mpr text.ascii)]
        rw [if_pos sub.ascii]

/-- The search of `rindex` starts within the receiver. -/
theorem searchStart_le {len : Nat} {args : List Scalar} {start : Int}
    (started : searchStart len args = some start) :
    start ≤ len := by
  unfold searchStart at started
  split at started
  · exact Int.le_of_eq (Option.some.inj started).symm
  · rename_i p
    generalize (if p.toInt < 0 then p.toInt + (len : Int) else p.toInt) = place at started
    by_cases below : place < 0
    · simp [below] at started
    · simp only [below, if_false, Option.some.injEq] at started
      rw [← started]
      exact Int.min_le_right _ _
  · cases started

/-- A lookup answers what `String` does exactly if the end of its search fits an `i64`. -/
theorem lookup_iff (text : AsciiText) (lookup : Lookup) (method : String)
    (named : method ∈ lookup.methods) :
    foldStrLookup text.chars method lookup.args = .ok (some (lookup.answer text.chars)) ↔
      ¬SearchOverflows text.chars method lookup.args := by
  constructor
  · intro answered
    rw [← answers_foldStrLookup_iff text.small method lookup.args lookup.args_representable]
    exact ⟨_, answered⟩
  · intro kept
    rw [foldStrLookup_lookup text lookup named]
    cases lookup with
    | char i => rw [Lookup.arm, charAt_eq]; rfl
    | substr start count => rw [Lookup.arm, substr_eq]; rfl
    | getByte i => rw [Lookup.arm, getByte_eq]; rfl
    | index sub offset =>
        cases offset with
        | none =>
            rw [Lookup.arm, find_eq_firstFrom]
            simp [Lookup.answer]
        | some offset => rw [Lookup.arm, indexFrom_eq]; rfl
    | rindex sub start =>
        rw [Lookup.arm]
        apply rindex_eq
        intro p started shorter
        by_contra long
        simp only [Lookup.methods, List.mem_cons, List.not_mem_nil, or_false] at named
        exact kept ⟨named, text.ascii, sub.chars, _, p, rfl, sub.ascii, shorter, started,
          Int.not_lt.mp long⟩

/-- On strings of less than `2 ^ 62` bytes a lookup answers what `String` does: no search ends past the largest
`i64`, since its start and its needle both lie within the receiver. -/
theorem lookup_answers (text : AsciiText) (short : text.chars.length < 2 ^ 62) (lookup : Lookup)
    (method : String) (named : method ∈ lookup.methods) :
    foldStrLookup text.chars method lookup.args = .ok (some (lookup.answer text.chars)) := by
  rw [lookup_iff text lookup method named]
  rintro ⟨-, -, sub, rest, start, -, -, within, started, past⟩
  have length := Text.len_of_ascii text.ascii
  have inside := searchStart_le started
  omega

theorem lookup_answers_byterindex :
    foldStrLookup "abcabc".toList "byterindex" [.str "bc".toList, .int (-3)] = .ok (some (.int 1)) :=
  lookup_answers ⟨"abcabc".toList, by decide, by decide⟩ (by decide)
    (.rindex ⟨"bc".toList, by decide, by decide⟩ (some (-3))) "byterindex" (by decide)

/-- A string of `2 ^ 62` letters: its search for itself ends past the largest `i64`. -/
def longText : AsciiText where
  chars := List.replicate (2 ^ 62) 'a'
  ascii := Text.isAscii_replicate _ (by decide)
  small := by
    rw [Text.len_of_ascii (Text.isAscii_replicate _ (by decide)), List.length_replicate]
    omega

theorem len_longText : longText.chars.len = 2 ^ 62 := by
  rw [Text.len_of_ascii longText.ascii]
  exact List.length_replicate

/-- Without a bound on the length the end of a search may overflow. -/
theorem not_lookup_rindex :
    ¬ ∀ (text : AsciiText) (lookup : Lookup) (method : String), method ∈ lookup.methods →
      foldStrLookup text.chars method lookup.args = .ok (some (lookup.answer text.chars)) := by
  intro answered
  have long := answered longText (.rindex longText none) "rindex" (by decide)
  apply (answers_foldStrLookup_iff longText.small "rindex" _
    (Lookup.args_representable (.rindex longText none))).mp ⟨_, long⟩
  have ends : (2 : Int) ^ 63 ≤ (2 ^ 62 : Nat) + (2 ^ 62 : Nat) := by omega
  refine ⟨Or.inl rfl, longText.ascii, longText.chars, [], longText.chars.len, rfl, longText.ascii,
    le_rfl, rfl, ?_⟩
  rw [len_longText]
  exact ends

end Rigor.Infer
