import Mathlib.Data.List.Basic
import Mathlib.Data.List.Infix
import Rigor.Library.Separated

/-!
# Escapes

Items that are replaced by words one after the other, and the reader that replaces the words back in
one pass.
-/

namespace Rigor.Library.Escaping

open Rigor.Library.Separated

universe u

variable {α : Type u} [DecidableEq α]

/-- Write a word for every occurrence of an item. -/
def replace (a : α) (word : List α) (text : List α) : List α :=
  text.flatMap fun b => if b = a then word else [b]

/-- Replace the items of some codes, one after the other. -/
def replaceAll (codes : List (α × List α)) (text : List α) : List α :=
  codes.foldl (fun text code => replace code.1 code.2 text) text

/-- What an item is written as. -/
def spell (codes : List (α × List α)) (a : α) : List α :=
  (codes.lookup a).getD [a]

/-- Read the words of the codes as their items; `skip` items belong to a word that is read. -/
def readFrom (codes : List (α × List α)) : Nat → List α → List α
  | _, [] => []
  | skip + 1, _ :: text => readFrom codes skip text
  | 0, a :: text =>
      match codes.find? fun code => code.2.isPrefixOf (a :: text) with
      | some code => code.1 :: readFrom codes (code.2.length - 1) text
      | none => a :: readFrom codes 0 text

def read (codes : List (α × List α)) (text : List α) : List α :=
  readFrom codes 0 text

/-- The text up to a stop that no escape precedes, and the text after it. -/
def scan (escape stop : α) : List α → Option (List α × List α)
  | [] => none
  | [a] => if a = stop then some ([], []) else none
  | a :: b :: text =>
      if a = stop then some ([], b :: text)
      else if a = escape then
        (scan escape stop text).map fun (front, back) => (a :: b :: front, back)
      else (scan escape stop (b :: text)).map fun (front, back) => (a :: front, back)

/--
Words that start with an escape, which has a word itself.  No word starts another, and an item is
replaced before the words that hold it are written.
-/
structure Escapes (escape : α) (codes : List (α × List α)) : Prop where
  coded : escape ∈ codes.map Prod.fst
  starts : ∀ code ∈ codes, code.2.head? = some escape
  prefixFree : codes.Pairwise fun front back => ¬front.2 <+: back.2 ∧ ¬back.2 <+: front.2
  ordered : codes.Pairwise fun front back => back.1 ∉ front.2

/-! ## Spelling -/

@[simp]
theorem spell_nil (a : α) : spell [] a = [a] :=
  rfl

theorem spell_cons (code : α × List α) (codes : List (α × List α)) (a : α) :
    spell (code :: codes) a = if a = code.1 then code.2 else spell codes a := by
  rw [spell, List.lookup_cons]
  by_cases same : a = code.1
  · rw [if_pos same, beq_iff_eq.mpr same]
    rfl
  · rw [if_neg same, beq_eq_false_iff_ne.mpr same]
    rfl

theorem spell_of_not_mem {codes : List (α × List α)} {a : α}
    (uncoded : a ∉ codes.map Prod.fst) : spell codes a = [a] := by
  induction codes with
  | nil => rfl
  | cons code codes ih =>
      rw [List.map_cons, List.mem_cons, not_or] at uncoded
      rw [spell_cons, if_neg uncoded.1, ih uncoded.2]

/-- An item is written as its word, or stays. -/
theorem spell_cases (codes : List (α × List α)) (a : α) :
    (a, spell codes a) ∈ codes ∨ (a ∉ codes.map Prod.fst ∧ spell codes a = [a]) := by
  induction codes with
  | nil => exact .inr ⟨List.not_mem_nil, rfl⟩
  | cons code codes ih =>
      rw [spell_cons]
      by_cases same : a = code.1
      · rw [if_pos same, same]
        exact .inl List.mem_cons_self
      · rw [if_neg same]
        rcases ih with coded | ⟨uncoded, stays⟩
        · exact .inl (List.mem_cons_of_mem _ coded)
        · refine .inr ⟨?_, stays⟩
          rw [List.map_cons, List.mem_cons, not_or]
          exact ⟨same, uncoded⟩

/-- Words without coded items are left alone by the codes that follow. -/
theorem flatMap_spell_of_not_mem {codes : List (α × List α)} {word : List α}
    (uncoded : ∀ code ∈ codes, code.1 ∉ word) : word.flatMap (spell codes) = word := by
  induction word with
  | nil => rfl
  | cons a word ih =>
      have stays : a ∉ codes.map Prod.fst := by
        intro mem
        rcases List.mem_map.mp mem with ⟨code, inCodes, rfl⟩
        exact uncoded code inCodes List.mem_cons_self
      have rest : ∀ code ∈ codes, code.1 ∉ word := fun code inCodes later =>
        uncoded code inCodes (List.mem_cons_of_mem _ later)
      rw [List.flatMap_cons, spell_of_not_mem stays, ih rest, List.singleton_append]

/-- One replacement after the other writes each item once. -/
theorem replaceAll_eq_flatMap {codes : List (α × List α)}
    (ordered : codes.Pairwise fun front back => back.1 ∉ front.2) (text : List α) :
    replaceAll codes text = text.flatMap (spell codes) := by
  induction codes generalizing text with
  | nil => exact (List.flatMap_singleton' text).symm
  | cons code codes ih =>
      rw [List.pairwise_cons] at ordered
      have first : replaceAll (code :: codes) text =
          (replace code.1 code.2 text).flatMap (spell codes) := ih ordered.2 _
      rw [first, replace, List.flatMap_assoc]
      congr 1
      funext a
      rw [spell_cons]
      by_cases same : a = code.1
      · rw [if_pos same, if_pos same, flatMap_spell_of_not_mem ordered.1]
      · rw [if_neg same, if_neg same, List.flatMap_singleton]

/-- A text without coded items stays. -/
theorem replaceAll_of_not_mem {codes : List (α × List α)}
    (ordered : codes.Pairwise fun front back => back.1 ∉ front.2) {text : List α}
    (uncoded : ∀ code ∈ codes, code.1 ∉ text) : replaceAll codes text = text := by
  rw [replaceAll_eq_flatMap ordered, flatMap_spell_of_not_mem uncoded]

/-- A coded item that no word holds is gone. -/
theorem not_mem_replaceAll {codes : List (α × List α)}
    (ordered : codes.Pairwise fun front back => back.1 ∉ front.2) {a : α}
    (coded : a ∈ codes.map Prod.fst) (outside : ∀ code ∈ codes, a ∉ code.2) (text : List α) :
    a ∉ replaceAll codes text := by
  rw [replaceAll_eq_flatMap ordered, List.mem_flatMap]
  rintro ⟨b, _, mem⟩
  rcases spell_cases codes b with isCoded | ⟨uncoded, stays⟩
  · exact outside _ isCoded mem
  · rw [stays, List.mem_singleton] at mem
    exact uncoded (mem ▸ coded)

/-! ## Reading -/

theorem readFrom_length_append (codes : List (α × List α)) (front text : List α) :
    readFrom codes front.length (front ++ text) = read codes text := by
  induction front with
  | nil => rfl
  | cons a front ih => exact ih

section Escapes

variable {escape : α} {codes : List (α × List α)}

/-- A word is read as its item. -/
theorem Escapes.read_word (escapes : Escapes escape codes) {code : α × List α}
    (mem : code ∈ codes) (text : List α) : read codes (code.2 ++ text) = code.1 :: read codes text := by
  have front := escapes.starts code mem
  rcases word : code.2 with _ | ⟨a, tail⟩
  · rw [word] at front
    contradiction
  · have found : codes.find? (fun other => other.2.isPrefixOf (a :: (tail ++ text))) = some code := by
      rw [List.find?_eq_some_iff_append]
      refine ⟨List.isPrefixOf_iff_prefix.mpr ⟨text, by rw [word, List.cons_append]⟩, ?_⟩
      rcases List.append_of_mem mem with ⟨before, after, rfl⟩
      refine ⟨before, after, rfl, ?_⟩
      intro other inFront
      rw [Bool.not_eq_true', Bool.eq_false_iff, Ne, List.isPrefixOf_iff_prefix]
      intro starts
      have free := (List.pairwise_append.mp escapes.prefixFree).2.2 other inFront code
        List.mem_cons_self
      have whole : code.2 <+: a :: (tail ++ text) := ⟨text, by rw [word, List.cons_append]⟩
      rcases List.prefix_or_prefix_of_prefix starts whole with shorter | longer
      · exact free.1 shorter
      · exact free.2 longer
    rw [List.cons_append, read, readFrom, found]
    simp only [word, List.length_cons, Nat.add_sub_cancel]
    rw [readFrom_length_append]

/-- An item other than the escape is read as it is. -/
theorem Escapes.read_cons (escapes : Escapes escape codes) {a : α} (plain : a ≠ escape)
    (text : List α) : read codes (a :: text) = a :: read codes text := by
  have none_found : codes.find? (fun code => code.2.isPrefixOf (a :: text)) = none := by
    rw [List.find?_eq_none]
    intro code mem starts
    rw [List.isPrefixOf_iff_prefix] at starts
    have front := escapes.starts code mem
    rcases word : code.2 with _ | ⟨b, tail⟩
    · rw [word] at front
      contradiction
    · rw [word, List.cons_prefix_cons] at starts
      rw [word, List.head?_cons, Option.some.injEq] at front
      exact plain (starts.1.symm.trans front)
  rw [read, readFrom, none_found]
  rfl

/-- The reader undoes the replacements by some of its codes. -/
theorem Escapes.read_replaceAll_of_sublist (escapes : Escapes escape codes)
    {written : List (α × List α)} (sublist : written.Sublist codes) (coded : escape ∈ written.map Prod.fst)
    (text : List α) : read codes (replaceAll written text) = text := by
  rw [replaceAll_eq_flatMap (escapes.ordered.sublist sublist)]
  induction text with
  | nil => rfl
  | cons a text ih =>
      rw [List.flatMap_cons]
      rcases spell_cases written a with isCoded | ⟨uncoded, stays⟩
      · rw [escapes.read_word (sublist.subset isCoded), ih]
      · have plain : a ≠ escape := by
          rintro rfl
          exact uncoded coded
        rw [stays, List.singleton_append, escapes.read_cons plain, ih]

theorem Escapes.read_replaceAll (escapes : Escapes escape codes) (text : List α) :
    read codes (replaceAll codes text) = text :=
  escapes.read_replaceAll_of_sublist (List.Sublist.refl codes) escapes.coded text

end Escapes

/-! ## Scanning -/

section Scan

variable {escape stop : α}

/-- A scan goes past the text. -/
def Passes (escape stop : α) (text : List α) : Prop :=
  ∀ rest, scan escape stop (text ++ rest) =
    (scan escape stop rest).map fun (front, back) => (text ++ front, back)

@[simp]
theorem scan_stop (rest : List α) : scan escape stop (stop :: rest) = some ([], rest) := by
  cases rest with
  | nil => rw [scan, if_pos rfl]
  | cons b rest => rw [scan, if_pos rfl]

theorem passes_nil : Passes escape stop [] := by
  intro rest
  simp

theorem Passes.append {front back : List α} (passes : Passes escape stop front)
    (passes' : Passes escape stop back) : Passes escape stop (front ++ back) := by
  intro rest
  rw [List.append_assoc, passes, passes', Option.map_map]
  congr 1
  funext cut
  simp only [Function.comp_apply, List.append_assoc]

theorem passes_singleton {a : α} (plain : a ≠ escape) (other : a ≠ stop) :
    Passes escape stop [a] := by
  intro rest
  cases rest with
  | nil => simp [scan, other]
  | cons b rest => rw [List.singleton_append, scan, if_neg other, if_neg plain]; rfl

/-- An escape protects the item after it. -/
theorem passes_pair {a : α} (other : escape ≠ stop) : Passes escape stop [escape, a] := by
  intro rest
  rw [List.cons_append, List.singleton_append, scan, if_neg other, if_pos rfl]
  rfl

theorem passes_of_forall {text : List α} (plain : ∀ a ∈ text, a ≠ escape ∧ a ≠ stop) :
    Passes escape stop text := by
  induction text with
  | nil => exact passes_nil
  | cons a text ih =>
      rw [List.forall_mem_cons] at plain
      exact (passes_singleton plain.1.1 plain.1.2).append (ih plain.2)

theorem Passes.flatten {texts : List (List α)} (passes : ∀ text ∈ texts, Passes escape stop text) :
    Passes escape stop texts.flatten := by
  induction texts with
  | nil => exact passes_nil
  | cons text texts ih =>
      rw [List.forall_mem_cons] at passes
      exact passes.1.append (ih passes.2)

theorem Passes.intercalate {sep : α} {texts : List (List α)} (passes : Passes escape stop [sep])
    (each : ∀ text ∈ texts, Passes escape stop text) : Passes escape stop ([sep].intercalate texts) := by
  cases texts with
  | nil => exact passes_nil
  | cons head tail =>
      rw [List.forall_mem_cons] at each
      rw [intercalate_cons, List.flatMap_def]
      refine each.1.append (Passes.flatten ?_)
      intro piece mem
      rcases List.mem_map.mp mem with ⟨text, inTail, rfl⟩
      exact passes.append (each.2 text inTail)

/-- A scan ends at the stop after a text that it goes past. -/
theorem Passes.scan_append {text : List α} (passes : Passes escape stop text) (rest : List α) :
    scan escape stop (text ++ stop :: rest) = some (text, rest) := by
  rw [passes, scan_stop]
  simp only [Option.map_some, List.append_nil]

/-- A scan goes past what escapes of two items have written, if the stop has one. -/
theorem Escapes.passes_replaceAll {codes : List (α × List α)} (escapes : Escapes escape codes)
    (pairs : ∀ code ∈ codes, code.2.length = 2) (coded : stop ∈ codes.map Prod.fst)
    (other : escape ≠ stop) (text : List α) : Passes escape stop (replaceAll codes text) := by
  rw [replaceAll_eq_flatMap escapes.ordered, List.flatMap_def]
  refine Passes.flatten ?_
  intro piece mem
  rcases List.mem_map.mp mem with ⟨a, _, rfl⟩
  rcases spell_cases codes a with isCoded | ⟨uncoded, stays⟩
  · rcases List.length_eq_two.mp (pairs _ isCoded) with ⟨first, second, word⟩
    have front := escapes.starts _ isCoded
    simp only at word
    rw [word, List.head?_cons, Option.some.injEq] at front
    rw [word, front]
    exact passes_pair other
  · rw [stays]
    refine passes_singleton ?_ ?_
    · rintro rfl
      exact uncoded escapes.coded
    · rintro rfl
      exact uncoded coded

end Scan

end Rigor.Library.Escaping
