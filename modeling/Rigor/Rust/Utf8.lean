import Mathlib.Data.List.Basic
import Rigor.Rust.Str

/-!
# UTF-8

`str::from_utf8` and `String::from_utf8_lossy`, and what they keep of the ASCII bytes.
-/

namespace Rigor.Rust

open Rigor.Text

/-- The character that the bytes begin with. -/
def decodeChar? (bytes : List UInt8) : Option Char :=
  bytes.toByteArray.utf8DecodeChar? 0

def isContinuation (b : UInt8) : Bool :=
  b &&& 0xc0 = 0x80

/-- The second byte of three. -/
def startsThree (first second : UInt8) : Bool :=
  (first = 0xe0 && 0xa0 ≤ second && second ≤ 0xbf) ||
    (0xe1 ≤ first && first ≤ 0xec && 0x80 ≤ second && second ≤ 0xbf) ||
    (first = 0xed && 0x80 ≤ second && second ≤ 0x9f) ||
    (0xee ≤ first && first ≤ 0xef && 0x80 ≤ second && second ≤ 0xbf)

/-- The second byte of four. -/
def startsFour (first second : UInt8) : Bool :=
  (first = 0xf0 && 0x90 ≤ second && second ≤ 0xbf) ||
    (0xf1 ≤ first && first ≤ 0xf3 && 0x80 ≤ second && second ≤ 0xbf) ||
    (first = 0xf4 && 0x80 ≤ second && second ≤ 0x8f)

/-- How many bytes after `first` belong to the same broken character. -/
def brokenTail (first : UInt8) : List UInt8 → Nat
  | [] => 0
  | second :: rest =>
      if startsThree first second then 1
      else if startsFour first second then
        if rest.head?.any isContinuation then 2 else 1
      else 0

/-- `String::from_utf8_lossy`: a replacement character for every broken one. -/
def fromUtf8Lossy : List UInt8 → Text
  | [] => []
  | first :: rest =>
      match decodeChar? (first :: rest) with
      | some c => c :: fromUtf8Lossy (rest.drop (c.utf8Size - 1))
      | none => '\ufffd' :: fromUtf8Lossy (rest.drop (brokenTail first rest))
termination_by bytes => bytes.length
decreasing_by all_goals simp only [List.length_drop, List.length_cons]; omega

/-- `str::from_utf8`. -/
def fromUtf8 : List UInt8 → Option Text
  | [] => some []
  | first :: rest =>
      match decodeChar? (first :: rest) with
      | some c => (fromUtf8 (rest.drop (c.utf8Size - 1))).map (c :: ·)
      | none => none
termination_by bytes => bytes.length
decreasing_by simp only [List.length_drop, List.length_cons]; omega

/-! ## Characters -/

theorem decodeChar?_append (c : Char) (rest : List UInt8) :
    decodeChar? (String.utf8EncodeChar c ++ rest) = some c := by
  rw [decodeChar?, List.toByteArray_append]
  exact ByteArray.utf8DecodeChar?_utf8EncodeChar_append

theorem decodeChar?_eq_some_iff {bytes : List UInt8} {c : Char} :
    decodeChar? bytes = some c ↔ ∃ rest, bytes = String.utf8EncodeChar c ++ rest := by
  constructor
  · intro decoded
    rcases ByteArray.exists_of_utf8DecodeChar?_eq_some decoded with ⟨rest, same⟩
    have data := congrArg (fun array => array.data.toList) same
    refine ⟨rest.data.toList, ?_⟩
    simpa [List.data_toByteArray, ByteArray.data_append] using data
  · rintro ⟨rest, rfl⟩
    exact decodeChar?_append c rest

theorem toNat_ofNat_byte (b : UInt8) : (Char.ofNat b.toNat).toNat = b.toNat := by
  have bound : b.toNat < 256 := UInt8.toNat_lt b
  have valid : b.toNat.isValidChar := .inl (by omega)
  rw [Char.ofNat, dif_pos valid]
  rfl

/-- An ASCII byte is a character of its own. -/
theorem utf8EncodeChar_ofNat {b : UInt8} (low : b < 128) :
    String.utf8EncodeChar (Char.ofNat b.toNat) = [b] := by
  have bound : b.toNat < 128 := UInt8.lt_iff_toNat_lt.mp low
  have value := toNat_ofNat_byte b
  have ascii : (Char.ofNat b.toNat).val < 128 := by
    rw [UInt32.lt_iff_toNat_lt]
    exact Nat.lt_of_le_of_lt (Nat.le_of_eq value) bound
  rw [String.utf8EncodeChar_eq_singleton (utf8Size_of_ascii ascii), List.singleton_inj,
    ← UInt8.toNat_inj, UInt32.toNat_toUInt8]
  exact (congrArg (· % 2 ^ 8) value).trans (Nat.mod_eq_of_lt (by omega))

/-- The first byte of a character and the others. -/
theorem exists_utf8EncodeChar_eq (c : Char) : ∃ first tail,
    String.utf8EncodeChar c = first :: tail ∧ tail.length = c.utf8Size - 1 := by
  rcases List.exists_cons_of_ne_nil (String.utf8EncodeChar_ne_nil (c := c)) with ⟨first, tail, same⟩
  have size := congrArg List.length same
  rw [String.length_utf8EncodeChar, List.length_cons] at size
  exact ⟨first, tail, same, by omega⟩

theorem fromUtf8Lossy_append (c : Char) (rest : List UInt8) :
    fromUtf8Lossy (String.utf8EncodeChar c ++ rest) = c :: fromUtf8Lossy rest := by
  rcases exists_utf8EncodeChar_eq c with ⟨first, tail, same, size⟩
  have decoded := decodeChar?_append c rest
  rw [same, List.cons_append] at decoded ⊢
  rw [fromUtf8Lossy, decoded]
  simp only [← size, List.drop_left]

theorem fromUtf8_append (c : Char) (rest : List UInt8) :
    fromUtf8 (String.utf8EncodeChar c ++ rest) = (fromUtf8 rest).map (c :: ·) := by
  rcases exists_utf8EncodeChar_eq c with ⟨first, tail, same, size⟩
  have decoded := decodeChar?_append c rest
  rw [same, List.cons_append] at decoded ⊢
  rw [fromUtf8, decoded]
  simp only [← size, List.drop_left]

/-! ## Texts -/

/-- Nothing is lost of the bytes of a text. -/
theorem fromUtf8Lossy_bytes (text : Text) : fromUtf8Lossy (bytes text) = text := by
  induction text with
  | nil => rw [bytes, List.flatMap_nil, fromUtf8Lossy]
  | cons c text ih => rw [bytes_cons, fromUtf8Lossy_append, ih]

theorem fromUtf8_bytes (text : Text) : fromUtf8 (bytes text) = some text := by
  induction text with
  | nil => rw [bytes, List.flatMap_nil, fromUtf8]
  | cons c text ih => rw [bytes_cons, fromUtf8_append, ih, Option.map_some]

theorem bytes_of_fromUtf8 {read : List UInt8} {text : Text} (valid : fromUtf8 read = some text) :
    bytes text = read := by
  induction text generalizing read with
  | nil =>
      cases read with
      | nil => rfl
      | cons first rest =>
          rw [fromUtf8] at valid
          split at valid
          · rcases Option.map_eq_some_iff.mp valid with ⟨text, _, same⟩
            nomatch same
          · nomatch valid
  | cons c text ih =>
      cases read with
      | nil =>
          rw [fromUtf8] at valid
          nomatch valid
      | cons first rest =>
          rw [fromUtf8] at valid
          split at valid
          · rename_i d decoded
            rcases Option.map_eq_some_iff.mp valid with ⟨text', inner, same⟩
            obtain ⟨rfl, rfl⟩ := List.cons.inj same
            rcases decodeChar?_eq_some_iff.mp decoded with ⟨after, whole⟩
            rcases exists_utf8EncodeChar_eq d with ⟨first', tail, encoded, size⟩
            rw [encoded, List.cons_append, List.cons.injEq] at whole
            rw [whole.2, ← size, List.drop_left] at inner
            rw [bytes_cons, encoded, ih inner, List.cons_append, whole.1, whole.2]
          · nomatch valid

/-! ## ASCII bytes -/

theorem byte_lt_of_ascii {text : Text} (ascii : isAscii text = true) {b : UInt8}
    (mem : b ∈ bytes text) : b < 128 := by
  rcases List.mem_flatMap.mp mem with ⟨c, inText, inChar⟩
  have low : c.val < 128 := of_decide_eq_true (List.all_eq_true.mp ascii c inText)
  rw [String.utf8EncodeChar_eq_singleton (utf8Size_of_ascii low), List.mem_singleton] at inChar
  rw [inChar, UInt8.lt_iff_toNat_lt, UInt32.toNat_toUInt8]
  exact Nat.lt_of_le_of_lt (Nat.mod_le _ _) low

theorem not_ascii_of_startsThree {first second : UInt8} (starts : startsThree first second = true) :
    ¬ second < 128 := by
  simp only [startsThree, Bool.or_eq_true, Bool.and_eq_true, decide_eq_true_eq,
    UInt8.le_iff_toNat_le] at starts
  rw [UInt8.lt_iff_toNat_lt]
  simp at starts ⊢
  omega

theorem not_ascii_of_startsFour {first second : UInt8} (starts : startsFour first second = true) :
    ¬ second < 128 := by
  simp only [startsFour, Bool.or_eq_true, Bool.and_eq_true, decide_eq_true_eq,
    UInt8.le_iff_toNat_le] at starts
  rw [UInt8.lt_iff_toNat_lt]
  simp at starts ⊢
  omega

theorem not_ascii_of_isContinuation {b : UInt8} (continues : isContinuation b = true) :
    ¬ b < 128 := by
  rw [isContinuation, decide_eq_true_eq, ← UInt8.toNat_inj, UInt8.toNat_and] at continues
  have small : b.toNat &&& (0xc0 : UInt8).toNat ≤ b.toNat := Nat.and_le_left
  rw [continues] at small
  rw [UInt8.lt_iff_toNat_lt]
  exact Nat.not_lt.mpr small

/-- The bytes of a broken character are no ASCII bytes. -/
theorem not_ascii_of_mem_brokenTail {first : UInt8} {rest : List UInt8} {b : UInt8}
    (mem : b ∈ rest.take (brokenTail first rest)) : ¬ b < 128 := by
  cases rest with
  | nil => nomatch mem
  | cons second rest =>
      rw [brokenTail] at mem
      by_cases three : startsThree first second = true
      · rw [if_pos three, List.take_succ_cons, List.take_zero, List.mem_singleton] at mem
        rw [mem]
        exact not_ascii_of_startsThree three
      · rw [if_neg three] at mem
        by_cases four : startsFour first second = true
        · rw [if_pos four] at mem
          have second_high := not_ascii_of_startsFour four
          by_cases continues : rest.head?.any isContinuation = true
          · rcases (Option.any_eq_true _ _).mp continues with ⟨third, head, isThird⟩
            rcases List.head?_eq_some_iff.mp head with ⟨rest, rfl⟩
            rw [if_pos continues] at mem
            rcases List.mem_cons.mp mem with rfl | mem
            · exact second_high
            · rw [List.take_succ_cons, List.take_zero, List.mem_singleton] at mem
              rw [mem]
              exact not_ascii_of_isContinuation isThird
          · rw [if_neg continues, List.take_succ_cons, List.take_zero, List.mem_singleton] at mem
            rwa [mem]
        · rw [if_neg four] at mem
          nomatch mem

/-- An ASCII byte among the bytes of a text is a character of it. -/
theorem split_of_bytes {a : Char} (ascii : a.val < 128) {text : Text} {front back : List UInt8}
    (split : bytes text = front ++ a.val.toUInt8 :: back) :
    ∃ before after, text = before ++ a :: after ∧ bytes before = front ∧ bytes after = back := by
  induction text generalizing front with
  | nil => simp [bytes] at split
  | cons c text ih =>
      rw [bytes_cons, List.append_eq_append_iff] at split
      rcases split with ⟨rest, rfl, later⟩ | ⟨rest, encoded, later⟩
      · rcases ih later with ⟨before, after, rfl, rfl, rfl⟩
        exact ⟨c :: before, after, rfl, bytes_cons c before, rfl⟩
      · cases rest with
        | nil =>
            rw [List.append_nil] at encoded
            rcases @ih [] later.symm with ⟨before, after, rfl, empty, rfl⟩
            exact ⟨c :: before, after, rfl, by rw [bytes_cons, empty, encoded, List.append_nil], rfl⟩
        | cons b rest =>
            obtain ⟨rfl, rfl⟩ := List.cons.inj later
            have inside : a.val.toUInt8 ∈ String.utf8EncodeChar c := by
              rw [encoded]
              exact List.mem_append_right _ List.mem_cons_self
            obtain rfl := (mem_utf8EncodeChar_iff ascii).mp inside
            rw [String.utf8EncodeChar_eq_singleton (utf8Size_of_ascii ascii)] at encoded
            have alone := congrArg List.length encoded
            simp only [List.length_append, List.length_cons, List.length_nil] at alone
            obtain rfl : front = [] := List.eq_nil_of_length_eq_zero (by omega)
            obtain rfl : rest = [] := List.eq_nil_of_length_eq_zero (by omega)
            exact ⟨[], text, rfl, rfl, rfl⟩

theorem count_utf8EncodeChar {a : Char} (ascii : a.val < 128) (c : Char) :
    (String.utf8EncodeChar c).count a.val.toUInt8 = if c = a then 1 else 0 := by
  by_cases same : c = a
  · rw [if_pos same, same, String.utf8EncodeChar_eq_singleton (utf8Size_of_ascii ascii),
      List.count_singleton_self]
  · rw [if_neg same, List.count_eq_zero]
    exact fun mem => same ((mem_utf8EncodeChar_iff ascii).mp mem)

/-- Decoding keeps the number of every ASCII character. -/
theorem count_fromUtf8Lossy {a : Char} (ascii : a.val < 128) (read : List UInt8) :
    (fromUtf8Lossy read).count a = read.count a.val.toUInt8 := by
  induction read using fromUtf8Lossy.induct with
  | case1 =>
      rw [fromUtf8Lossy]
      rfl
  | case2 first rest c decoded ih =>
      rcases decodeChar?_eq_some_iff.mp decoded with ⟨after, whole⟩
      rcases exists_utf8EncodeChar_eq c with ⟨first', tail, encoded, size⟩
      have parts := whole
      rw [encoded, List.cons_append, List.cons.injEq] at parts
      rw [parts.2, ← size, List.drop_left] at ih
      rw [whole, fromUtf8Lossy_append, List.count_append, List.count_cons, ih,
        count_utf8EncodeChar ascii, Nat.add_comm]
      simp only [beq_iff_eq]
  | case3 first rest broken ih =>
      have low : a.val.toUInt8 < 128 := by
        rw [UInt8.lt_iff_toNat_lt, UInt32.toNat_toUInt8]
        exact Nat.lt_of_le_of_lt (Nat.mod_le _ _) ascii
      have high : first ≠ a.val.toUInt8 := by
        rintro rfl
        have decoded := decodeChar?_append (Char.ofNat a.val.toUInt8.toNat) rest
        rw [utf8EncodeChar_ofNat low, List.singleton_append, broken] at decoded
        nomatch decoded
      have other : '\ufffd' ≠ a := by
        rintro rfl
        exact absurd ascii (by decide)
      have skipped : (rest.take (brokenTail first rest)).count a.val.toUInt8 = 0 := by
        rw [List.count_eq_zero]
        exact fun mem => not_ascii_of_mem_brokenTail mem low
      rw [fromUtf8Lossy, broken]
      simp only
      rw [List.count_cons_of_ne other, ih, List.count_cons_of_ne high]
      conv_rhs => rw [← List.take_append_drop (brokenTail first rest) rest, List.count_append,
        skipped, Nat.zero_add]

end Rigor.Rust
