import Mathlib.Data.List.Flatten
import Rigor.Rust.Arithmetic
import Rigor.Text

/-!
# `str`

The methods of `str` that count in bytes.  An offset inside a character is not a
boundary, and slicing there panics.
-/

namespace Rigor.Text

open Rigor.Rust

/-- The UTF-8 bytes. -/
def bytes (text : Text) : List UInt8 :=
  text.flatMap String.utf8EncodeChar

/-- `str::len`. -/
def len (text : Text) : Nat :=
  (bytes text).length

def isAscii (text : Text) : Bool :=
  text.all fun c => c.val < 128

/-- The parts before and after a byte offset, if it is a character boundary. -/
def splitAt : Nat → Text → Option (Text × Text)
  | 0, text => some ([], text)
  | _ + 1, [] => none
  | n + 1, c :: text =>
      if c.utf8Size ≤ n + 1 then
        (splitAt (n + 1 - c.utf8Size) text).map fun (front, back) => (c :: front, back)
      else none
termination_by _ text => text.length

/-- `&text[start..stop]`. -/
def slice (text : Text) (start stop : Nat) : Checked Text :=
  if stop < start then .error .outOfBounds
  else
    match (splitAt stop text).bind fun (front, _) => splitAt start front with
    | some (_, middle) => .ok middle
    | none => .error .outOfBounds

/-- `text.as_bytes()[i]`. -/
def byteAt (text : Text) (i : Nat) : Checked UInt8 :=
  match (bytes text)[i]? with
  | some byte => .ok byte
  | none => .error .outOfBounds

/-- `str::find` of a substring. -/
def find (needle : Text) : Text → Option Nat
  | [] => if needle = [] then some 0 else none
  | c :: text =>
      if needle.isPrefixOf (c :: text) then some 0
      else (find needle text).map (c.utf8Size + ·)

/-- `str::rfind` of a substring. -/
def rfind (needle : Text) : Text → Option Nat
  | [] => if needle = [] then some 0 else none
  | c :: text =>
      match rfind needle text with
      | some p => some (c.utf8Size + p)
      | none => if needle.isPrefixOf (c :: text) then some 0 else none

/-- `str::contains` of a substring. -/
def contains (text needle : Text) : Bool :=
  (find needle text).isSome

/-- `str::repeat`. -/
def repeat_ (text : Text) (count : Nat) : Checked Text :=
  if len text * count < 2 ^ 63 then .ok (List.replicate count text).flatten
  else .error .capacityOverflow

/-- The concatenation of two strings, `format!("{a}{b}")`. -/
def concat (a b : Text) : Checked Text :=
  if len a + len b < 2 ^ 63 then .ok (a ++ b) else .error .capacityOverflow

/-! ## Lengths -/

theorem bytes_cons (c : Char) (text : Text) :
    bytes (c :: text) = String.utf8EncodeChar c ++ bytes text :=
  List.flatMap_cons

@[simp]
theorem bytes_append (a b : Text) : bytes (a ++ b) = bytes a ++ bytes b :=
  List.flatMap_append

@[simp]
theorem len_nil : len [] = 0 :=
  rfl

@[simp]
theorem len_cons (c : Char) (text : Text) : len (c :: text) = c.utf8Size + len text := by
  simp [len, bytes]

@[simp]
theorem len_append (a b : Text) : len (a ++ b) = len a + len b := by
  simp [len, bytes]

theorem splitAt_append (front back : Text) :
    splitAt (len front) (front ++ back) = some (front, back) := by
  induction front with
  | nil => simp [splitAt]
  | cons c front ih =>
      have size := c.utf8Size_pos
      obtain ⟨n, total⟩ : ∃ n, len (c :: front) = n + 1 := ⟨_, (Nat.succ_pred (by simp; omega)).symm⟩
      have rest : n + 1 - c.utf8Size = len front := by
        rw [← total, len_cons, Nat.add_sub_cancel_left]
      have fits : c.utf8Size ≤ n + 1 := by
        rw [← total, len_cons]
        exact Nat.le_add_right _ _
      rw [total, List.cons_append, splitAt, if_pos fits, rest, ih]
      rfl

theorem of_splitAt {n : Nat} {text front back : Text}
    (cut : splitAt n text = some (front, back)) : front ++ back = text ∧ len front = n := by
  induction text generalizing n front back with
  | nil =>
      cases n with
      | zero => simp_all [splitAt]
      | succ n => simp [splitAt] at cut
  | cons c text ih =>
      cases n with
      | zero => simp_all [splitAt]
      | succ n =>
          rw [splitAt] at cut
          split at cut
          · obtain ⟨⟨inner, rest⟩, found, same⟩ := Option.map_eq_some_iff.mp cut
            obtain ⟨rfl, rfl⟩ := Prod.mk.inj same
            have inside := ih found
            rw [List.cons_append, inside.1, len_cons, inside.2]
            exact ⟨rfl, by omega⟩
          · contradiction

/-- A slice that ends a prefix of the text. -/
theorem slice_append (front middle back : Text) :
    slice (front ++ middle ++ back) (len front) (len front + len middle) = .ok middle := by
  have stop := splitAt_append (front ++ middle) back
  rw [len_append] at stop
  rw [slice, if_neg (by omega), stop, Option.bind_some]
  simp only [splitAt_append]

theorem find_isSome_iff {needle text : Text} :
    (find needle text).isSome = true ↔ needle <:+: text := by
  induction text with
  | nil =>
      rw [find, List.infix_nil]
      split <;> simp_all
  | cons c text ih =>
      rw [find, List.infix_cons_iff]
      split
      · rename_i start
        simp [List.isPrefixOf_iff_prefix.mp start]
      · rename_i start
        rw [List.isPrefixOf_iff_prefix] at start
        simp [start, ih]

theorem contains_iff {needle text : Text} : contains text needle = true ↔ needle <:+: text :=
  find_isSome_iff

/-- A found needle lies inside the text. -/
theorem find_le {needle text : Text} {p : Nat} (found : find needle text = some p) :
    p ≤ len text := by
  induction text generalizing p with
  | nil =>
      rw [find] at found
      split at found <;> simp_all
  | cons c text ih =>
      rw [find] at found
      split at found
      · obtain rfl := Option.some.inj found
        exact Nat.zero_le _
      · obtain ⟨q, inner, rfl⟩ := Option.map_eq_some_iff.mp found
        have := ih inner
        rw [len_cons]
        omega

/-! ## ASCII strings -/

theorem utf8Size_of_ascii {c : Char} (ascii : c.val < 128) : c.utf8Size = 1 := by
  rw [Char.utf8Size_eq_one_iff, UInt32.le_iff_toNat_le]
  exact Nat.le_of_lt_succ ascii

theorem isAscii_cons (c : Char) (text : Text) :
    isAscii (c :: text) = true ↔ c.val < 128 ∧ isAscii text = true := by
  simp [isAscii]

theorem len_of_ascii {text : Text} (ascii : isAscii text = true) : len text = text.length := by
  induction text with
  | nil => rfl
  | cons c text ih =>
      rw [isAscii_cons] at ascii
      rw [len_cons, utf8Size_of_ascii ascii.1, ih ascii.2, List.length_cons, Nat.add_comm]

/-- In an ASCII string every offset is a boundary. -/
theorem isAscii_replicate (n : Nat) {c : Char} (ascii : c.val < 128) :
    isAscii (List.replicate n c) = true := by
  apply List.all_eq_true.mpr
  intro d mem
  rw [List.eq_of_mem_replicate mem]
  exact decide_eq_true ascii

theorem splitAt_of_ascii {text : Text} (ascii : isAscii text = true) {n : Nat}
    (inside : n ≤ text.length) : splitAt n text = some (text.take n, text.drop n) := by
  induction text generalizing n with
  | nil =>
      obtain rfl : n = 0 := by simpa using inside
      simp [splitAt]
  | cons c text ih =>
      rw [isAscii_cons] at ascii
      cases n with
      | zero => simp [splitAt]
      | succ n =>
          have inner : n ≤ text.length := by simpa using inside
          simp [splitAt, utf8Size_of_ascii ascii.1, ih ascii.2 inner]

theorem isAscii_take {text : Text} (ascii : isAscii text = true) (n : Nat) :
    isAscii (text.take n) = true := by
  rw [isAscii, List.all_eq_true] at ascii ⊢
  exact fun c mem => ascii c (List.mem_of_mem_take mem)

theorem isAscii_drop {text : Text} (ascii : isAscii text = true) (n : Nat) :
    isAscii (text.drop n) = true := by
  rw [isAscii, List.all_eq_true] at ascii ⊢
  exact fun c mem => ascii c (List.mem_of_mem_drop mem)

theorem slice_of_ascii {text : Text} (ascii : isAscii text = true) {start stop : Nat}
    (ordered : start ≤ stop) (inside : stop ≤ text.length) :
    slice text start stop = .ok ((text.take stop).drop start) := by
  have front : start ≤ (text.take stop).length := by
    rw [List.length_take]
    omega
  rw [slice, if_neg (Nat.not_lt.mpr ordered), splitAt_of_ascii ascii inside, Option.bind_some]
  simp only [splitAt_of_ascii (isAscii_take ascii stop) front]

/-! ## The bytes of a character -/

/-- Only the byte of an ASCII character is below 128. -/
theorem utf8EncodeChar_of_byte_lt {c : Char} {byte : UInt8}
    (mem : byte ∈ String.utf8EncodeChar c) (low : byte < 128) :
    c.utf8Size = 1 ∧ byte = c.val.toUInt8 := by
  have continuation (high mark : UInt8) (large : 128 ≤ mark) : ¬ high ||| mark < 128 := by
    rw [UInt8.not_lt, UInt8.le_iff_toNat_le, UInt8.toNat_or]
    exact Nat.le_trans (UInt8.le_iff_toNat_le.mp large) Nat.right_le_or
  rcases c.utf8Size_eq with one | two | three | four
  · rw [String.utf8EncodeChar_eq_singleton one, List.mem_singleton] at mem
    exact ⟨one, mem⟩
  · rw [String.utf8EncodeChar_eq_cons_cons two] at mem
    simp only [List.mem_cons, List.not_mem_nil, or_false] at mem
    rcases mem with rfl | rfl <;> exact absurd low (continuation _ _ (by decide))
  · rw [String.utf8EncodeChar_eq_cons_cons_cons three] at mem
    simp only [List.mem_cons, List.not_mem_nil, or_false] at mem
    rcases mem with rfl | rfl | rfl <;> exact absurd low (continuation _ _ (by decide))
  · rw [String.utf8EncodeChar_eq_cons_cons_cons_cons four] at mem
    simp only [List.mem_cons, List.not_mem_nil, or_false] at mem
    rcases mem with rfl | rfl | rfl | rfl <;> exact absurd low (continuation _ _ (by decide))

/-- A byte below 128 is the whole encoding of an ASCII character. -/
theorem mem_utf8EncodeChar_iff {a c : Char} (ascii : a.val < 128) :
    a.val.toUInt8 ∈ String.utf8EncodeChar c ↔ c = a := by
  have small : a.val.toUInt8 < 128 := by
    rw [UInt8.lt_iff_toNat_lt, UInt32.toNat_toUInt8]
    exact Nat.lt_of_le_of_lt (Nat.mod_le _ _) ascii
  constructor
  · intro mem
    obtain ⟨one, same⟩ := utf8EncodeChar_of_byte_lt mem small
    have bound : c.val.toNat < 256 := by
      have := UInt32.le_iff_toNat_le.mp (Char.utf8Size_eq_one_iff.mp one)
      exact Nat.lt_of_le_of_lt this (by decide)
    have bound' : a.val.toNat < 256 :=
      Nat.lt_trans (UInt32.lt_iff_toNat_lt.mp ascii) (by decide)
    rw [← UInt8.toNat_inj, UInt32.toNat_toUInt8, UInt32.toNat_toUInt8,
      Nat.mod_eq_of_lt bound, Nat.mod_eq_of_lt bound'] at same
    exact Char.ext (UInt32.toNat_inj.mp same.symm)
  · rintro rfl
    rw [String.utf8EncodeChar_eq_singleton (utf8Size_of_ascii ascii)]
    exact List.mem_singleton_self _

/-- The last byte of a character. -/
def lastByte (c : Char) : UInt8 :=
  (String.utf8EncodeChar c).getLast String.utf8EncodeChar_ne_nil

theorem lastByte_eq_iff {a c : Char} (ascii : a.val < 128) :
    lastByte c = a.val.toUInt8 ↔ c = a := by
  constructor
  · intro same
    exact (mem_utf8EncodeChar_iff ascii).mp (same ▸ List.getLast_mem _)
  · rintro rfl
    simp [lastByte, String.utf8EncodeChar_eq_singleton (utf8Size_of_ascii ascii)]

/-- The byte before a boundary is the last byte of the character before it. -/
theorem byteAt_append (front back : Text) (c : Char) :
    byteAt (front ++ [c] ++ back) (len (front ++ [c]) - 1) = .ok (lastByte c) := by
  have size := c.utf8Size_pos
  have position : len (front ++ [c]) - 1 = (bytes front).length + (c.utf8Size - 1) := by
    rw [len_append, len_cons, len_nil, len]
    omega
  have inside : c.utf8Size - 1 < (String.utf8EncodeChar c).length := by
    rw [String.length_utf8EncodeChar]
    omega
  have found : (bytes (front ++ [c] ++ back))[len (front ++ [c]) - 1]? = some (lastByte c) := by
    rw [position]
    simp only [bytes, List.flatMap_append, List.flatMap_cons, List.flatMap_nil, List.append_nil,
      List.append_assoc]
    rw [List.getElem?_append_right (Nat.le_add_right _ _), Nat.add_sub_cancel_left,
      List.getElem?_append_left inside, lastByte, List.getLast_eq_getElem]
    simp only [String.length_utf8EncodeChar]
    exact List.getElem?_eq_getElem _
  rw [byteAt, found]

end Rigor.Text
