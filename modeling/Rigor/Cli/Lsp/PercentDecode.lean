import Rigor.Rust.Digits
import Rigor.Rust.Lines
import Rigor.Rust.Utf8

/-!
# Percent decoding

`file_uri_to_path` and `percent_decode`, against the escapes of a path.
-/

namespace Rigor.Cli.Lsp

open Rigor.Rust Rigor.Text

def percent : UInt8 :=
  '%'.val.toUInt8

/-- The byte that two hexadecimal digits spell, `u8::from_str_radix`. -/
def hexByte (digits : List UInt8) : Option UInt8 :=
  ((fromUtf8 digits).bind (fromStrRadix 8 16)).map UInt8.ofNat

/-- The loop of `percent_decode`. -/
def decodeEscapes : List UInt8 → List UInt8
  | [] => []
  | b :: rest =>
      if b = percent ∧ 2 ≤ rest.length then
        match hexByte (rest.take 2) with
        | some value => value :: decodeEscapes (rest.drop 2)
        | none => b :: decodeEscapes rest
      else b :: decodeEscapes rest
termination_by bytes => bytes.length
decreasing_by all_goals simp only [List.length_drop, List.length_cons]; omega

def percentDecode (s : Text) : Text :=
  fromUtf8Lossy (decodeEscapes (bytes s))

def fileUriToPath (uri : Text) : Checked (Option Text) :=
  match stripPrefix "file://".toList uri with
  | none => .ok none
  | some rest =>
      match find ['/'] rest with
      | none => .ok none
      | some start => do return some (percentDecode (← slice rest start (len rest)))

/-! ## Escapes -/

/-- The value of a hexadecimal digit. -/
def hexValue (b : UInt8) : Option Nat :=
  toDigit 16 (Char.ofNat b.toNat)

/-- Every `%` with two hexadecimal digits replaced by its byte, from the left and once. -/
def unescape : List UInt8 → List UInt8
  | b :: h :: l :: rest =>
      match if b = percent then (hexValue h).bind fun x => (hexValue l).map (16 * x + ·) else none with
      | some value => UInt8.ofNat value :: unescape rest
      | none => b :: unescape (h :: l :: rest)
  | b :: rest => b :: unescape rest
  | [] => []

/-- An encoding of some bytes: `%` has to be escaped, everything else may be. -/
inductive Encodes : List UInt8 → List UInt8 → Prop where
  | nil : Encodes [] []
  | literal {b : UInt8} {path encoding : List UInt8} (plain : b ≠ percent)
      (rest : Encodes path encoding) : Encodes (b :: path) (b :: encoding)
  | escaped {b h l : UInt8} {x y : Nat} {path encoding : List UInt8} (high : hexValue h = some x)
      (low : hexValue l = some y) (same : 16 * x + y = b.toNat) (rest : Encodes path encoding) :
      Encodes (b :: path) (percent :: h :: l :: encoding)

/-- A plus sign where the first digit of an escape would stand. -/
def PlusEscape (read : List UInt8) : Prop :=
  ∃ h, (hexValue h).isSome ∧ [percent, '+'.val.toUInt8, h] <:+: read

/-! ## Two digits -/

theorem ascii_of_hexValue {b : UInt8} {x : Nat} (digit : hexValue b = some x) : b < 128 := by
  have ascii := UInt32.lt_iff_toNat_lt.mp (ascii_of_toDigit digit)
  rw [UInt8.lt_iff_toNat_lt, ← toNat_ofNat_byte]
  exact ascii

theorem ascii_of_foldDigits {bits radix acc value : Nat} {digits : Text}
    (read : foldDigits bits radix acc digits = some value) : isAscii digits = true := by
  induction digits generalizing acc with
  | nil => rfl
  | cons c digits ih =>
      rw [foldDigits] at read
      cases digit : toDigit radix c with
      | none =>
          rw [digit] at read
          nomatch read
      | some d =>
          simp only [digit] at read
          split at read
          · exact (isAscii_cons c digits).mpr ⟨ascii_of_toDigit digit, ih read⟩
          · nomatch read

theorem ascii_of_fromStrRadix {bits radix value : Nat} {text : Text}
    (read : fromStrRadix bits radix text = some value) : isAscii text = true := by
  rw [fromStrRadix.eq_def] at read
  split at read
  · nomatch read
  · nomatch read
  · nomatch read
  · exact (isAscii_cons _ _).mpr ⟨by decide, ascii_of_foldDigits read⟩
  · exact ascii_of_foldDigits read

theorem foldDigits_pair (c d : Char) : foldDigits 8 16 0 [c, d] =
    (toDigit 16 c).bind fun x => (toDigit 16 d).map (16 * x + ·) := by
  cases first : toDigit 16 c with
  | none => simp only [foldDigits, first, Option.bind_none]
  | some x =>
      have small := toDigit_lt first
      cases second : toDigit 16 d with
      | none => simp [foldDigits, first, second]
      | some y =>
          have small' := toDigit_lt second
          simp only [foldDigits, first, second, Option.bind_some, Option.map_some]
          rw [if_pos (by omega), if_pos (by omega), Nat.zero_mul, Nat.zero_add, Nat.mul_comm]

theorem fromStrRadix_pair (c d : Char) : fromStrRadix 8 16 [c, d] =
    if c = '+' then toDigit 16 d
    else (toDigit 16 c).bind fun x => (toDigit 16 d).map (16 * x + ·) := by
  by_cases plus : c = '+'
  · subst plus
    rw [if_pos rfl, fromStrRadix.eq_def]
    cases digit : toDigit 16 d with
    | none => simp only [foldDigits, digit]
    | some y =>
        have small := toDigit_lt digit
        simp only [foldDigits, digit]
        rw [if_pos (by omega), Nat.zero_mul, Nat.zero_add]
  · rw [if_neg plus, ← foldDigits_pair, fromStrRadix.eq_def]
    split
    · rename_i same
      nomatch same
    · rename_i same
      nomatch same
    · rename_i same
      nomatch same
    · rename_i same
      exact absurd (List.cons.inj same).1 plus
    · rfl

/-- Two bytes are accepted as two digits, and as a plus sign and one digit. -/
theorem hexByte_pair (a b : UInt8) : hexByte [a, b] =
    (if a = '+'.val.toUInt8 then hexValue b
      else (hexValue a).bind fun x => (hexValue b).map (16 * x + ·)).map UInt8.ofNat := by
  by_cases ascii : a < 128 ∧ b < 128
  · have pair : fromUtf8 [a, b] = some [Char.ofNat a.toNat, Char.ofNat b.toNat] := by
      have read := fromUtf8_bytes [Char.ofNat a.toNat, Char.ofNat b.toNat]
      rwa [bytes_cons, bytes_cons, utf8EncodeChar_ofNat ascii.1, utf8EncodeChar_ofNat ascii.2] at read
    have plus : Char.ofNat a.toNat = '+' ↔ a = '+'.val.toUInt8 := by
      have mem := @mem_utf8EncodeChar_iff '+' (Char.ofNat a.toNat) (by decide)
      rw [utf8EncodeChar_ofNat ascii.1, List.mem_singleton] at mem
      exact mem.symm.trans eq_comm
    rw [hexByte, pair, Option.bind_some, fromStrRadix_pair]
    simp only [plus, hexValue]
  · have declined : hexByte [a, b] = none := by
      rw [hexByte, Option.map_eq_none_iff, Option.eq_none_iff_forall_ne_some]
      intro value read
      rcases Option.bind_eq_some_iff.mp read with ⟨text, decoded, digits⟩
      have low : ∀ c ∈ [a, b], c < 128 := by
        rw [← bytes_of_fromUtf8 decoded]
        exact fun c => byte_lt_of_ascii (ascii_of_fromStrRadix digits)
      exact ascii ⟨low a (by simp), low b (by simp)⟩
    rw [declined, eq_comm, Option.map_eq_none_iff, Option.eq_none_iff_forall_ne_some]
    intro value read
    split at read
    · rename_i plus
      exact ascii ⟨by rw [plus]; decide, ascii_of_hexValue read⟩
    · rcases Option.bind_eq_some_iff.mp read with ⟨x, first, read⟩
      rcases Option.map_eq_some_iff.mp read with ⟨y, second, -⟩
      exact ascii ⟨ascii_of_hexValue first, ascii_of_hexValue second⟩

/-! ## The loop -/

theorem hexValue_percent : hexValue percent = none := by
  decide

theorem hexValue_plus : hexValue '+'.val.toUInt8 = none := by
  decide

/-- An escape is followed by a sign and a digit instead of two digits. -/
def plusAt (rest : List UInt8) : Prop :=
  ∃ h tail, rest = '+'.val.toUInt8 :: h :: tail ∧ (hexValue h).isSome

theorem decodeEscapes_plain {b : UInt8} (plain : b ≠ percent) (rest : List UInt8) :
    decodeEscapes (b :: rest) = b :: decodeEscapes rest := by
  rw [decodeEscapes, if_neg (fun both => plain both.1)]

/-- Too close to the end for two digits. -/
theorem decodeEscapes_short (b : UInt8) {rest : List UInt8} (short : rest.length < 2) :
    decodeEscapes (b :: rest) = b :: decodeEscapes rest := by
  rw [decodeEscapes, if_neg (fun both => Nat.not_le.mpr short both.2)]

theorem decodeEscapes_pair (h l : UInt8) (rest : List UInt8) :
    decodeEscapes (percent :: h :: l :: rest) =
      match hexByte [h, l] with
      | some value => value :: decodeEscapes rest
      | none => percent :: decodeEscapes (h :: l :: rest) := by
  rw [decodeEscapes, if_pos ⟨rfl, by simp⟩]
  rfl

theorem unescape_plain {b : UInt8} (plain : b ≠ percent) (rest : List UInt8) :
    unescape (b :: rest) = b :: unescape rest := by
  match rest with
  | [] => rfl
  | [_] => rfl
  | h :: l :: rest => rw [unescape, if_neg plain]

theorem unescape_short (b : UInt8) {rest : List UInt8} (short : rest.length < 2) :
    unescape (b :: rest) = b :: unescape rest := by
  match rest with
  | [] => rfl
  | [_] => rfl
  | _ :: _ :: _ =>
      simp only [List.length_cons] at short
      omega

theorem unescape_pair (h l : UInt8) (rest : List UInt8) :
    unescape (percent :: h :: l :: rest) =
      match (hexValue h).bind fun x => (hexValue l).map (16 * x + ·) with
      | some value => UInt8.ofNat value :: unescape rest
      | none => percent :: unescape (h :: l :: rest) := by
  rw [unescape, if_pos rfl]

theorem plusEscape_cons_iff {b : UInt8} {rest : List UInt8} : PlusEscape (b :: rest) ↔
    (b = percent ∧ plusAt rest) ∨ PlusEscape rest := by
  constructor
  · rintro ⟨h, digit, inside⟩
    rcases List.infix_cons_iff.mp inside with begins | later
    · rcases List.cons_prefix_cons.mp begins with ⟨rfl, tail, rfl⟩
      exact .inl ⟨rfl, h, tail, rfl, digit⟩
    · exact .inr ⟨h, digit, later⟩
  · rintro (⟨rfl, h, tail, rfl, digit⟩ | ⟨h, digit, later⟩)
    · exact ⟨h, digit, ⟨[], tail, rfl⟩⟩
    · exact ⟨h, digit, List.infix_cons later⟩

/-- The loop against the escapes: the same, or a `%` is lost. -/
structure Compares (read : List UInt8) : Prop where
  same : ¬PlusEscape read → decodeEscapes read = unescape read
  fewer : (decodeEscapes read).count percent ≤ (unescape read).count percent
  lost : PlusEscape read → (decodeEscapes read).count percent < (unescape read).count percent

namespace Compares

/-- Both emit the same byte, and no sign is in front. -/
theorem emits {b : UInt8} {read rest : List UInt8} (decoded : decodeEscapes read = b :: decodeEscapes rest)
    (unescaped : unescape read = b :: unescape rest) (inside : PlusEscape read ↔ PlusEscape rest)
    (compares : Compares rest) : Compares read := by
  constructor
  · intro absent
    rw [decoded, unescaped, compares.same (inside.not.mp absent)]
  · rw [decoded, unescaped, List.count_cons, List.count_cons]
    exact Nat.add_le_add_right compares.fewer _
  · intro present
    rw [decoded, unescaped, List.count_cons, List.count_cons]
    exact Nat.add_lt_add_right (compares.lost (inside.mp present)) _

theorem verbatim {b : UInt8} {rest : List UInt8}
    (decoded : decodeEscapes (b :: rest) = b :: decodeEscapes rest)
    (unescaped : unescape (b :: rest) = b :: unescape rest) (noSign : b = percent → ¬plusAt rest)
    (compares : Compares rest) : Compares (b :: rest) := by
  have inside : PlusEscape (b :: rest) ↔ PlusEscape rest := by
    rw [plusEscape_cons_iff]
    exact or_iff_right (fun both => noSign both.1 both.2)
  exact compares.emits decoded unescaped inside

theorem escape {h l : UInt8} {x y : Nat} {rest : List UInt8} (high : hexValue h = some x)
    (low : hexValue l = some y) (compares : Compares rest) :
    Compares (percent :: h :: l :: rest) := by
  have noPercent {b : UInt8} {z : Nat} (digit : hexValue b = some z) : b ≠ percent := by
    rintro rfl
    rw [hexValue_percent] at digit
    nomatch digit
  have noPlus : h ≠ '+'.val.toUInt8 := by
    rintro rfl
    rw [hexValue_plus] at high
    nomatch high
  have decoded : decodeEscapes (percent :: h :: l :: rest) =
      UInt8.ofNat (16 * x + y) :: decodeEscapes rest := by
    rw [decodeEscapes_pair, hexByte_pair, if_neg noPlus, high, low]
    rfl
  have unescaped : unescape (percent :: h :: l :: rest) =
      UInt8.ofNat (16 * x + y) :: unescape rest := by
    rw [unescape_pair, high, low]
    rfl
  have inside : PlusEscape (percent :: h :: l :: rest) ↔ PlusEscape rest := by
    rw [plusEscape_cons_iff, plusEscape_cons_iff, plusEscape_cons_iff]
    constructor
    · rintro (⟨-, _, _, same, -⟩ | ⟨isPercent, -⟩ | ⟨isPercent, -⟩ | later)
      · exact absurd (List.cons.inj same).1 noPlus
      · exact absurd isPercent (noPercent high)
      · exact absurd isPercent (noPercent low)
      · exact later
    · exact fun later => .inr (.inr (.inr later))
  exact compares.emits decoded unescaped inside

/-- Neither two digits nor a sign and a digit. -/
theorem broken {h l : UInt8} {rest : List UInt8}
    (noDigits : ((hexValue h).bind fun x => (hexValue l).map (16 * x + ·)) = none)
    (noSign : h = '+'.val.toUInt8 → hexValue l = none) (compares : Compares (h :: l :: rest)) :
    Compares (percent :: h :: l :: rest) := by
  have declined : hexByte [h, l] = none := by
    rw [hexByte_pair]
    by_cases sign : h = '+'.val.toUInt8
    · rw [if_pos sign, noSign sign]
      rfl
    · rw [if_neg sign, noDigits]
      rfl
  refine compares.verbatim ?_ ?_ (fun _ => ?_)
  · rw [decodeEscapes_pair, declined]
  · rw [unescape_pair, noDigits]
  · rintro ⟨l', tail, same, digit⟩
    simp only [List.cons.injEq] at same
    rw [← same.2.1, noSign same.1] at digit
    nomatch digit

/-- A sign and a digit are taken for two digits. -/
theorem plus {l : UInt8} {y : Nat} {rest : List UInt8} (low : hexValue l = some y)
    (compares : Compares rest) : Compares (percent :: '+'.val.toUInt8 :: l :: rest) := by
  have noPercent : l ≠ percent := by
    rintro rfl
    rw [hexValue_percent] at low
    nomatch low
  have small : y < 16 := toDigit_lt low
  have decoded : decodeEscapes (percent :: '+'.val.toUInt8 :: l :: rest) =
      UInt8.ofNat y :: decodeEscapes rest := by
    rw [decodeEscapes_pair, hexByte_pair, if_pos rfl, low]
    rfl
  have unescaped : unescape (percent :: '+'.val.toUInt8 :: l :: rest) =
      percent :: '+'.val.toUInt8 :: l :: unescape rest := by
    rw [unescape_pair, hexValue_plus, Option.bind_none, unescape_plain (by decide),
      unescape_plain noPercent]
  have other : UInt8.ofNat y ≠ percent := by
    intro same
    have value := congrArg UInt8.toNat same
    rw [UInt8.toNat_ofNat', Nat.mod_eq_of_lt (by omega)] at value
    have code : percent.toNat = 37 := by decide
    omega
  have fewer := compares.fewer
  have lost : (decodeEscapes (percent :: '+'.val.toUInt8 :: l :: rest)).count percent <
      (unescape (percent :: '+'.val.toUInt8 :: l :: rest)).count percent := by
    rw [decoded, unescaped, List.count_cons_of_ne other, List.count_cons_self,
      List.count_cons_of_ne (by decide), List.count_cons_of_ne noPercent]
    exact Nat.lt_succ_of_le fewer
  constructor
  · intro absent
    exact absurd (plusEscape_cons_iff.mpr (.inl ⟨rfl, l, rest, rfl, by rw [low]; rfl⟩)) absent
  · exact Nat.le_of_lt lost
  · exact fun _ => lost

end Compares

theorem compares (read : List UInt8) : Compares read := by
  induction size : read.length using Nat.strongRecOn generalizing read with
  | _ n ih =>
      subst size
      cases read with
      | nil =>
          have empty : decodeEscapes [] = [] := by rw [decodeEscapes]
          refine ⟨fun _ => by rw [empty, unescape], by rw [empty, unescape], ?_⟩
          rintro ⟨h, -, inside⟩
          nomatch List.infix_nil.mp inside
      | cons b rest =>
          have inner := ih rest.length (Nat.lt_succ_self _) rest rfl
          by_cases plain : b = percent
          · subst plain
            match rest with
            | [] =>
                refine inner.verbatim (decodeEscapes_short _ (by decide))
                  (unescape_short _ (by decide)) (fun _ => ?_)
                rintro ⟨_, _, same, -⟩
                nomatch same
            | [h] =>
                refine inner.verbatim (decodeEscapes_short _ (by simp))
                  (unescape_short _ (by simp)) (fun _ => ?_)
                rintro ⟨_, _, same, -⟩
                nomatch same
            | h :: l :: rest =>
                have twice := ih rest.length (by simp only [List.length_cons]; omega) rest rfl
                cases low : hexValue l with
                | none => exact inner.broken (by simp [low]) (fun _ => low)
                | some y =>
                    by_cases sign : h = '+'.val.toUInt8
                    · subst sign
                      exact twice.plus low
                    · cases high : hexValue h with
                      | none => exact inner.broken (by simp [high]) (fun isSign => absurd isSign sign)
                      | some x => exact twice.escape high low
          · exact inner.verbatim (decodeEscapes_plain plain rest) (unescape_plain plain rest)
              (fun isPercent => absurd isPercent plain)

/-- Decoding finds the escapes exactly where no sign stands for a digit. -/
theorem percentDecode_eq_iff (s : Text) :
    percentDecode s = fromUtf8Lossy (unescape (bytes s)) ↔ ¬PlusEscape (bytes s) := by
  constructor
  · intro same present
    have lost := (compares (bytes s)).lost present
    have count := congrArg (List.count '%') same
    rw [percentDecode, count_fromUtf8Lossy (by decide), count_fromUtf8Lossy (by decide)] at count
    exact Nat.ne_of_lt lost count
  · intro absent
    rw [percentDecode, (compares (bytes s)).same absent]

/-! ## Paths -/

theorem decodeEscapes_of_encodes {path encoding : List UInt8} (encodes : Encodes path encoding) :
    decodeEscapes encoding = path := by
  induction encodes with
  | nil => rw [decodeEscapes]
  | literal plain _ ih => rw [decodeEscapes_plain plain, ih]
  | @escaped b h l x y path encoding high low same _ ih =>
      have noPlus : h ≠ '+'.val.toUInt8 := by
        rintro rfl
        rw [hexValue_plus] at high
        nomatch high
      rw [decodeEscapes_pair, hexByte_pair, if_neg noPlus, high, low]
      simp only [Option.bind_some, Option.map_some, same, UInt8.ofNat_toNat, ih]

/-- An encoding splits where a byte stands for itself. -/
theorem encodes_split {path front back : List UInt8} {b : UInt8} (noDigit : hexValue b = none)
    (encodes : Encodes path (front ++ b :: back)) :
    ∃ front' back', path = front' ++ back' ∧ Encodes front' front ∧ Encodes back' (b :: back) := by
  generalize whole : front ++ b :: back = encoding at encodes
  induction encodes generalizing front with
  | nil => simp at whole
  | @literal c path encoding plain rest ih =>
      cases front with
      | nil =>
          rw [List.nil_append] at whole
          rw [whole]
          exact ⟨[], c :: path, rfl, .nil, .literal plain rest⟩
      | cons d front =>
          obtain ⟨rfl, later⟩ := List.cons.inj whole
          rcases ih later with ⟨front', back', rfl, first, second⟩
          exact ⟨d :: front', back', rfl, .literal plain first, second⟩
  | @escaped c h l x y path encoding high low same rest ih =>
      match front with
      | [] =>
          rw [List.nil_append] at whole
          rw [whole]
          exact ⟨[], c :: path, rfl, .nil, .escaped high low same rest⟩
      | [_] =>
          simp only [List.cons_append, List.nil_append, List.cons.injEq] at whole
          rw [← whole.2.1, noDigit] at high
          nomatch high
      | [_, _] =>
          simp only [List.cons_append, List.nil_append, List.cons.injEq] at whole
          rw [← whole.2.2.1, noDigit] at low
          nomatch low
      | _ :: _ :: _ :: front =>
          simp only [List.cons_append, List.cons.injEq] at whole
          rcases whole with ⟨rfl, rfl, rfl, whole⟩
          rcases ih whole with ⟨front', back', rfl, first, second⟩
          exact ⟨c :: front', back', rfl, .escaped high low same first, second⟩

theorem encodes_nil {encoding : List UInt8} (encodes : Encodes [] encoding) : encoding = [] := by
  cases encodes
  rfl

theorem encodes_cons {path encoding : List UInt8} {b : UInt8} (plain : b ≠ percent)
    (encodes : Encodes path (b :: encoding)) :
    ∃ rest, path = b :: rest ∧ Encodes rest encoding := by
  generalize whole : b :: encoding = read at encodes
  cases encodes with
  | nil => nomatch whole
  | literal _ rest =>
      obtain ⟨rfl, rfl⟩ := List.cons.inj whole
      exact ⟨_, rfl, rest⟩
  | escaped => exact absurd (List.cons.inj whole).1 plain

/-- Where a character is found first. -/
theorem find_singleton (c : Char) (text : Text) :
    (c ∉ text ∧ find [c] text = none) ∨ ∃ front back, text = front ++ c :: back ∧ c ∉ front ∧
      find [c] text = some (len front) := by
  induction text with
  | nil => exact .inl ⟨List.not_mem_nil, rfl⟩
  | cons d text ih =>
      by_cases same : c = d
      · refine .inr ⟨[], text, by rw [same, List.nil_append], List.not_mem_nil, ?_⟩
        rw [find, if_pos (by simp [same])]
        rfl
      · have other : ¬[c].isPrefixOf (d :: text) = true := by simp [same]
        rw [find, if_neg other]
        rcases ih with ⟨notMem, absent⟩ | ⟨front, back, rfl, notBefore, found⟩
        · refine .inl ⟨?_, by rw [absent, Option.map_none]⟩
          rw [List.mem_cons, not_or]
          exact ⟨same, notMem⟩
        · refine .inr ⟨d :: front, back, rfl, ?_, by rw [found, Option.map_some, len_cons]⟩
          rw [List.mem_cons, not_or]
          exact ⟨same, notBefore⟩

theorem fileUriToPath_of_find {encoding front back : Text} (split : encoding = front ++ '/' :: back)
    (found : find ['/'] encoding = some (len front)) :
    fileUriToPath ("file://".toList ++ encoding) = .ok (some (percentDecode ('/' :: back))) := by
  have cut : slice encoding (len front) (len encoding) = .ok ('/' :: back) := by
    have middle := slice_append front ('/' :: back) []
    rwa [List.append_nil, ← len_append, ← split] at middle
  rw [fileUriToPath, stripPrefix, if_pos (by simp), List.drop_left]
  simp only [found, cut]
  rfl

/-- The path is found from its encoding exactly where the encoding starts with a slash. -/
theorem fileUriToPath_iff {path encoding : Text} (encodes : Encodes (bytes path) (bytes encoding)) :
    fileUriToPath ("file://".toList ++ encoding) = .ok (some path) ↔ encoding.head? = some '/' := by
  rcases find_singleton '/' encoding with ⟨notMem, absent⟩ | ⟨front, back, rfl, notBefore, found⟩
  · have declined : fileUriToPath ("file://".toList ++ encoding) = .ok none := by
      rw [fileUriToPath, stripPrefix, if_pos (by simp), List.drop_left]
      simp only [absent]
    rw [declined]
    exact iff_of_false (by simp) (fun head => notMem (List.mem_of_head? head))
  · rw [fileUriToPath_of_find rfl found]
    cases front with
    | nil =>
        rw [List.nil_append] at encodes ⊢
        rw [percentDecode, decodeEscapes_of_encodes encodes, fromUtf8Lossy_bytes]
        exact iff_of_true rfl rfl
    | cons c front =>
        apply iff_of_false
        · -- the part before the slash is no part of the result
          have slash (text : Text) : bytes ('/' :: text) = '/'.val.toUInt8 :: bytes text :=
            bytes_cons _ _
          rw [bytes_append, slash] at encodes
          rcases encodes_split (by decide) encodes with ⟨front', back', split, first, second⟩
          rcases encodes_cons (by decide) second with ⟨back', rfl, _⟩
          rcases split_of_bytes (by decide) split with ⟨before, after, rfl, rfl, rfl⟩
          rw [percentDecode, slash, decodeEscapes_of_encodes second, ← slash, fromUtf8Lossy_bytes]
          intro same
          have size := congrArg List.length (Option.some.inj (Except.ok.inj same))
          rw [List.length_append] at size
          obtain rfl : before = [] := List.eq_nil_of_length_eq_zero (by omega)
          have size' : len (c :: front) = 0 := congrArg List.length (encodes_nil first)
          have positive := c.utf8Size_pos
          rw [len_cons] at size'
          omega
        · intro head
          rw [List.cons_append, List.head?_cons, Option.some.injEq] at head
          exact notBefore (head ▸ List.mem_cons_self)

/--
The escapes of a text are decoded exactly where no sign stands for a digit.  Paths are read back
from all their encodings that begin with the slash of the path.
-/
theorem percentDecode_iff (s : Text) :
    (percentDecode s = fromUtf8Lossy (unescape (bytes s)) ↔ ¬PlusEscape (bytes s)) ∧
    ∀ path encoding : Text, Encodes (bytes path) (bytes encoding) →
      (fileUriToPath ("file://".toList ++ encoding) = .ok (some path) ↔
        encoding.head? = some '/') :=
  ⟨percentDecode_eq_iff s, fun _ _ => fileUriToPath_iff⟩

/-- A sign between `%` and a digit is taken for a digit. -/
theorem not_percentDecode_plus : percentDecode ['%', '+', '5'] = ['\x05'] ∧
    percentDecode ['%', '+', '5'] ≠ fromUtf8Lossy (unescape (bytes ['%', '+', '5'])) := by
  have read : bytes ['%', '+', '5'] = [percent, '+'.val.toUInt8, '5'.val.toUInt8] := by decide
  constructor
  · have digit : hexValue '5'.val.toUInt8 = some 5 := by decide
    have decoded : decodeEscapes [percent, '+'.val.toUInt8, '5'.val.toUInt8] = bytes ['\x05'] := by
      rw [decodeEscapes_pair, hexByte_pair, if_pos rfl, digit, decodeEscapes]
      rfl
    rw [percentDecode, read, decoded, fromUtf8Lossy_bytes]
  · rw [Ne, percentDecode_eq_iff, not_not, read]
    exact ⟨'5'.val.toUInt8, by decide, List.infix_rfl⟩

end Rigor.Cli.Lsp
