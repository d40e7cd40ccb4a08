import Rigor.Infer.KernelFold.Sprintf
import Rigor.Library.Numerals

/-!
# Segments

What the helpers of `sprintf` build, and that they do not panic within the limit.
-/

namespace Rigor.Infer.KernelFold

open Rigor.Library.Numerals Rigor.Rust Rigor.Types

/-! ## Digits -/

/-- The digits of a number in a radix. -/
def radixDigits (mag : Nat) (radix : Radix) (upper : Bool) : Text :=
  (Nat.toDigits radix.value mag).map fun ch => if upper then ch.toUpper else ch

theorem digitAt_eq : ∀ d < 16, digitAt d = .ok d.digitChar := by
  decide

theorem digitAt_mod (n : Nat) (radix : Radix) :
    digitAt (n % radix.value) = .ok (n % radix.value).digitChar := by
  apply digitAt_eq
  have below : n % radix.value < radix.value :=
    Nat.mod_lt n (Nat.lt_of_lt_of_le Nat.two_pos radix.two_le_value)
  have atMost : radix.value ≤ 16 := by cases radix <;> decide
  exact Nat.lt_of_lt_of_le below atMost

theorem toRadixLoop_eq {radix : Radix} {upper : Bool} {n : Nat} (positive : 0 < n) (buf : Text) :
    toRadixLoop radix upper n buf = .ok (buf ++ (radixDigits n radix upper).reverse) := by
  have base : 1 < radix.value := radix.two_le_value
  induction n using Nat.strongRecOn generalizing buf with
  | _ n ih =>
      rw [toRadixLoop, if_pos positive, digitAt_mod, radixDigits, Nat.toDigits_eq_if base]
      simp only [bind, Except.bind]
      by_cases last : n < radix.value
      · rw [if_pos last, Nat.div_eq_of_lt last, Nat.mod_eq_of_lt last, toRadixLoop,
          if_neg (Nat.lt_irrefl 0)]
        rfl
      · rw [if_neg last, ih (n / radix.value) (Nat.div_lt_self positive base)
          (Nat.div_pos (Nat.not_lt.mp last) (Nat.lt_trans Nat.zero_lt_one base)), radixDigits]
        simp

theorem toRadix_eq (mag : Nat) (radix : Radix) (upper : Bool) :
    toRadix mag radix upper = .ok (radixDigits mag radix upper) := by
  rw [toRadix]
  by_cases zero : mag = 0
  · rw [if_pos zero, zero, radixDigits, Nat.toDigits_zero]
    cases upper <;> rfl
  · rw [if_neg zero, toRadixLoop_eq (Nat.pos_of_ne_zero zero), List.nil_append]
    simp [bind, Except.bind, pure, Except.pure]

theorem digitChar_ascii : ∀ d < 16, ∀ upper : Bool,
    (if upper then d.digitChar.toUpper else d.digitChar).val < 128 := by
  decide

theorem isAscii_radixDigits (mag : Nat) (radix : Radix) (upper : Bool) :
    Text.isAscii (radixDigits mag radix upper) = true := by
  apply List.all_eq_true.mpr
  intro c mem
  rcases List.mem_map.mp mem with ⟨ch, inDigits, rfl⟩
  rcases exists_of_mem_toDigits radix.two_le_value inDigits with ⟨d, below, rfl⟩
  have atMost : radix.value ≤ 16 := by cases radix <;> decide
  exact decide_eq_true (digitChar_ascii d (Nat.lt_of_lt_of_le below atMost) upper)

/-! ## Filling -/

theorem repeat_eq {n : Nat} {c : Char} (small : n ≤ stringFoldByteLimit) (ascii : c.val < 128) :
    Text.repeat_ [c] n = .ok (List.replicate n c) := by
  have one : Text.len [c] = 1 := Text.len_of_ascii (by simp [Text.isAscii, ascii])
  rw [Text.repeat_, one, Nat.one_mul,
    if_pos (Nat.lt_of_le_of_lt small (by decide)), List.flatten_replicate_singleton]

theorem subUsize_eq {a b : Nat} (le : b ≤ a) : subUsize a b = .ok (a - b) :=
  if_pos le

/-- The digits with a precision. -/
def preciseDigits (isZero : Prop) [Decidable isZero] (digits : Text) : Option Nat → Text
  | none => digits
  | some p =>
      if isZero ∧ p = 0 then [] else List.replicate (p - digits.length) '0' ++ digits

theorem withPrecision_eq (isZero : Prop) [Decidable isZero] {digits : Text} {precision : Option Nat}
    (ascii : Text.isAscii digits = true) (capped : ∀ p ∈ precision, p ≤ stringFoldByteLimit) :
    withPrecision isZero digits precision = .ok (preciseDigits isZero digits precision) := by
  cases precision with
  | none => rfl
  | some p =>
      have small : p ≤ stringFoldByteLimit := capped p rfl
      rw [withPrecision, preciseDigits, Text.len_of_ascii ascii]
      by_cases empty : isZero ∧ p = 0
      · rw [if_pos empty, if_pos empty]
        rfl
      · rw [if_neg empty, if_neg empty]
        by_cases short : digits.length < p
        · rw [if_pos short, subUsize_eq (Nat.le_of_lt short)]
          simp only [bind, Except.bind]
          rw [repeat_eq (Nat.le_trans (Nat.sub_le _ _) small) (by decide)]
          rfl
        · rw [if_neg short, Nat.sub_eq_zero_of_le (Nat.not_lt.mp short)]
          rfl

/-- The layout of `pad`. -/
def padded (body sign : Text) (flags : Flags) (width : Option Nat) (precisionGiven : Bool) : Text :=
  let padding := width.getD 0 - (sign.length + body.length)
  if flags.minus then sign ++ body ++ List.replicate padding ' '
  else if flags.zero ∧ ¬precisionGiven then sign ++ List.replicate padding '0' ++ body
  else List.replicate padding ' ' ++ sign ++ body

theorem padded_of_ge {body sign : Text} {flags : Flags} {width : Option Nat}
    {precisionGiven : Bool} (full : width.getD 0 ≤ sign.length + body.length) :
    padded body sign flags width precisionGiven = sign ++ body := by
  simp only [padded, Nat.sub_eq_zero_of_le full, List.replicate_zero, List.append_nil,
    List.nil_append, ite_self]

theorem pad_eq {body sign : Text} {flags : Flags} {width : Option Nat} {precisionGiven : Bool}
    (asciiBody : Text.isAscii body = true) (asciiSign : Text.isAscii sign = true)
    (capped : ∀ w ∈ width, w ≤ stringFoldByteLimit) :
    pad body sign flags width precisionGiven =
      .ok (padded body sign flags width precisionGiven) := by
  simp only [pad, Text.len_of_ascii asciiBody, Text.len_of_ascii asciiSign]
  cases width with
  | none =>
      rw [padded_of_ge (Nat.zero_le _)]
      rfl
  | some w =>
      have small : w - (sign.length + body.length) ≤ stringFoldByteLimit :=
        Nat.le_trans (Nat.sub_le _ _) (capped w rfl)
      by_cases full : sign.length + body.length ≥ w
      · rw [padded_of_ge (show (some w).getD 0 ≤ _ from full)]
        exact if_pos full
      · simp only [if_neg full, subUsize_eq (Nat.le_of_lt (Nat.not_le.mp full)), bind, Except.bind,
          repeat_eq small (c := ' ') (by decide), repeat_eq small (c := '0') (by decide), padded,
          Option.getD_some, pure, Except.pure]
        split
        · rfl
        · split <;> rfl

theorem isAscii_preciseDigits (isZero : Prop) [Decidable isZero] {digits : Text}
    (ascii : Text.isAscii digits = true) (precision : Option Nat) :
    Text.isAscii (preciseDigits isZero digits precision) = true := by
  cases precision with
  | none => exact ascii
  | some p =>
      rw [preciseDigits]
      split
      · rfl
      · rw [Text.isAscii, List.all_append, Bool.and_eq_true]
        exact ⟨Text.isAscii_replicate _ (by decide), ascii⟩

/-! ## The segments -/

section Segments

variable {flags : Flags} {width precision : Option Nat}

/-- The sign of `fmt_integer`. -/
def signOf (value : Int) (flags : Flags) : Text :=
  if value < 0 then ['-']
  else if flags.plus then ['+']
  else if flags.space then [' ']
  else []

/-- The segment of a radix directive. -/
def radixSegment (v : Nat) (radix : Radix) (upper : Bool) (altPrefix : Text) (flags : Flags)
    (width precision : Option Nat) : Text :=
  let lead := if flags.hash ∧ v ≠ 0 then altPrefix else []
  padded (lead ++ preciseDigits (v = 0) (radixDigits v radix upper) precision) [] flags width
    precision.isSome

/-- The segment of an integer directive. -/
def integerSegment (value : Int) (radix : Radix) (upper : Bool) (flags : Flags)
    (width precision : Option Nat) : Text :=
  padded (preciseDigits (value = 0) (radixDigits value.natAbs radix upper) precision)
    (signOf value flags) flags width precision.isSome

variable (cappedWidth : ∀ w ∈ width, w ≤ stringFoldByteLimit)
  (cappedPrecision : ∀ p ∈ precision, p ≤ stringFoldByteLimit)

include cappedWidth

theorem fmtString_ok (s : Text) : ∃ text, fmtString s flags width precision = .ok text := by
  simp only [fmtString]
  generalize truncateTo s precision = truncated
  cases width with
  | none => exact ⟨_, rfl⟩
  | some w =>
      by_cases full : truncated.length ≥ w
      · exact ⟨_, if_pos full⟩
      · simp only [if_neg full, subUsize_eq (Nat.le_of_lt (Nat.not_le.mp full)), bind, Except.bind]
        rw [repeat_eq (Nat.le_trans (Nat.sub_le _ _) (cappedWidth w rfl)) (by decide)]
        exact ⟨_, rfl⟩

include cappedPrecision

theorem fmtRadixArg_eq (radix : Radix) (upper : Bool) {altPrefix : Text}
    (ascii : Text.isAscii altPrefix = true) (arg : Scalar) :
    fmtRadixArg arg radix upper altPrefix flags width precision =
      match arg with
      | .int n =>
          if n ≥ 0 then
            .ok (some (radixSegment n.toInt.toNat radix upper altPrefix flags width precision))
          else .ok none
      | _ => .ok none := by
  cases arg with
  | int n =>
      rw [fmtRadixArg]
      by_cases nonneg : n ≥ 0
      · have asciiDigits := isAscii_radixDigits n.toInt.toNat radix upper
        have asciiBody : Text.isAscii ((if flags.hash ∧ n.toInt.toNat ≠ 0 then altPrefix else []) ++
            preciseDigits (n.toInt.toNat = 0) (radixDigits n.toInt.toNat radix upper) precision) =
              true := by
          rw [Text.isAscii, List.all_append, Bool.and_eq_true]
          refine ⟨?_, isAscii_preciseDigits _ asciiDigits precision⟩
          split
          · exact ascii
          · rfl
        rw [if_pos nonneg]
        simp only [toRadix_eq, bind, Except.bind, withPrecision_eq _ asciiDigits cappedPrecision,
          pad_eq asciiBody (show Text.isAscii [] = true from rfl) cappedWidth, pure, Except.pure]
        exact (if_pos nonneg).symm
      · rw [if_neg nonneg]
        exact (if_neg nonneg).symm
  | _ => rfl

theorem fmtInteger_eq (value : Int) (radix : Radix) (upper : Bool) :
    fmtInteger value radix upper flags width precision =
      .ok (integerSegment value radix upper flags width precision) := by
  have asciiDigits := isAscii_radixDigits value.natAbs radix upper
  have asciiBody := isAscii_preciseDigits (value = 0) asciiDigits precision
  have asciiSign : Text.isAscii (signOf value flags) = true := by
    rw [signOf]
    split
    · rfl
    · split
      · rfl
      · split <;> rfl
  rw [fmtInteger, toRadix_eq]
  simp only [bind, Except.bind, withPrecision_eq _ asciiDigits cappedPrecision]
  exact pad_eq asciiBody asciiSign cappedWidth

end Segments

/-- A directive within the limit does not panic. -/
theorem formatArg_ok {d : Directive} (capped : d.Capped) (arg : Scalar) :
    ∃ result, formatArg d arg = .ok result := by
  have strings : ∀ s precision, ∃ text, fmtString s d.flags d.width precision = .ok text :=
    fun s _ => fmtString_ok capped.width s
  have radices : ∀ radix upper (altPrefix : Text), altPrefix.isAscii = true →
      ∃ result, fmtRadixArg arg radix upper altPrefix d.flags d.width d.precision = .ok result := by
    intro radix upper altPrefix ascii
    rw [fmtRadixArg_eq capped.width capped.precision radix upper ascii]
    split
    · split <;> exact ⟨_, rfl⟩
    · exact ⟨_, rfl⟩
  unfold formatArg
  split
  case h_1 | h_2 | h_3 =>
    split
    · rw [fmtInteger_eq capped.width capped.precision]
      exact ⟨_, rfl⟩
    · exact ⟨_, rfl⟩
  case h_4 => exact radices .hex false _ (by decide)
  case h_5 => exact radices .hex true _ (by decide)
  case h_6 => exact radices .octal false _ (by decide)
  case h_7 => exact radices .binary false _ (by decide)
  case h_8 => exact radices .binary false _ (by decide)
  case h_9 =>
    rcases strings (rubyStringOf arg) d.precision with ⟨text, formatted⟩
    rw [formatted]
    exact ⟨_, rfl⟩
  case h_10 =>
    split
    · rename_i inspected _
      rcases strings inspected d.precision with ⟨text, formatted⟩
      rw [formatted]
      exact ⟨_, rfl⟩
    · exact ⟨_, rfl⟩
  case h_11 =>
    split
    · exact ⟨_, rfl⟩
    · split
      · rename_i value _
        rcases strings value none with ⟨text, formatted⟩
        rw [formatted]
        exact ⟨_, rfl⟩
      · exact ⟨_, rfl⟩
  case h_12 => exact ⟨_, rfl⟩

end Rigor.Infer.KernelFold
