import Rigor.Infer.KernelFold.SprintfSafe

/-!
# The layout of integer directives

A template of one integer directive against Ruby's layout: sign, radix prefix, zero fill, digits,
and the spaces around them.
-/

namespace Rigor.Infer.KernelFold

open Rigor.Library Rigor.Library.Numerals Rigor.Rust Rigor.Types

/-! ## Ruby's layout -/

/-- The directives of integers with a radix, and the decimal one. -/
def integerConversions : List Char :=
  ['d', 'x', 'X', 'o', 'b', 'B']

def radixOf : Char → Radix
  | 'x' | 'X' => .hex
  | 'o' => .octal
  | 'b' | 'B' => .binary
  | _ => .decimal

/-- The digits of a number, at least as many as the precision; none for a zero of precision 0. -/
def rubyDigits (d : Directive) (n : Nat) : Text :=
  preciseDigits (n = 0) (radixDigits n (radixOf d.conv) (d.conv = 'X')) d.precision

def rubySign (flags : Flags) : Text :=
  if flags.plus then ['+'] else if flags.space then [' '] else []

/-- What `#` adds: for an octal number a zero unless its digits start with one. -/
def rubyPrefix (d : Directive) (n : Nat) : Text :=
  if d.flags.hash then
    match d.conv with
    | 'x' => if n = 0 then [] else ['0', 'x']
    | 'X' => if n = 0 then [] else ['0', 'X']
    | 'b' => if n = 0 then [] else ['0', 'b']
    | 'B' => if n = 0 then [] else ['0', 'B']
    | 'o' => if (rubyDigits d n).head? = some '0' then [] else ['0']
    | _ => []
  else []

/-- Sign, prefix and digits with the fill that the flags ask for, on the side they ask for. -/
def layout (sign lead digits : Text) (flags : Flags) (width : Nat) (precisionGiven : Bool) : Text :=
  let natural := sign ++ lead ++ digits
  let fill := width - natural.length
  if flags.minus then natural ++ List.replicate fill ' '
  else if flags.zero ∧ ¬precisionGiven then sign ++ lead ++ List.replicate fill '0' ++ digits
  else List.replicate fill ' ' ++ natural

/-- `Kernel#format` of one integer directive. -/
def rubyLayout (d : Directive) (n : Nat) : Text :=
  layout (rubySign d.flags) (rubyPrefix d n) (rubyDigits d n) d.flags (d.width.getD 0)
    d.precision.isSome

/-! ## The layout of the source -/

/-- The prefix that `fmt_radix_arg` puts before the digits. -/
def radixPrefix (d : Directive) (n : Nat) : Text :=
  if d.flags.hash ∧ n ≠ 0 then
    match d.conv with
    | 'x' => ['0', 'x']
    | 'X' => ['0', 'X']
    | 'b' => ['0', 'b']
    | 'B' => ['0', 'B']
    | 'o' => ['0']
    | _ => []
  else []

/-- The segment of an integer directive. -/
def numberSegment (d : Directive) (n : Nat) : Text :=
  if d.conv = 'd' then
    padded (rubyDigits d n) (rubySign d.flags) d.flags d.width d.precision.isSome
  else padded (radixPrefix d n ++ rubyDigits d n) [] d.flags d.width d.precision.isSome

theorem preciseDigits_congr {isZero isZero' : Prop} [Decidable isZero] [Decidable isZero']
    (same : isZero ↔ isZero') (digits : Text) (precision : Option Nat) :
    preciseDigits isZero digits precision = preciseDigits isZero' digits precision := by
  cases precision with
  | none => rfl
  | some p => simp only [preciseDigits, same]

theorem formatArg_number {d : Directive} (capped : d.Capped) (integer : d.conv ∈ integerConversions)
    {n : Int64} (nonneg : 0 ≤ n.toInt) :
    formatArg d (.int n) = .ok (some (numberSegment d n.toInt.toNat)) := by
  have atLeast : n ≥ 0 := Int64.le_iff_toInt_le.mpr nonneg
  rcases d with ⟨flags, width, precision, conv⟩
  simp only [integerConversions, List.mem_cons, List.not_mem_nil, or_false] at integer
  rcases integer with rfl | rfl | rfl | rfl | rfl | rfl
  · have sign : signOf n.toInt flags = rubySign flags := if_neg (Int.not_lt.mpr nonneg)
    have magnitude : n.toInt.natAbs = n.toInt.toNat := by omega
    have zero : n.toInt = 0 ↔ n.toInt.toNat = 0 := by omega
    simp only [formatArg, intValue, fmtInteger_eq capped.width capped.precision, integerSegment,
      sign, magnitude, preciseDigits_congr zero]
    rfl
  all_goals
    simp only [formatArg]
    rw [fmtRadixArg_eq capped.width capped.precision _ _ (by decide)]
    simp only [if_pos atLeast]
    rfl

/-! ## One directive -/

section Single

variable (spelled : Spelled)

/-- The template of the directive alone. -/
def Spelled.template : Text :=
  '%' :: spelled.tail

/-- A template of one integer directive is rendered if it and its result are within the limit. -/
theorem sprintf_template (integer : spelled.conv ∈ integerConversions) {n : Int64}
    (nonneg : 0 ≤ n.toInt) (out : Text) :
    Fuel.Returns (sprintf spelled.template [.int n]) (.ok (some out)) ↔
      spelled.directive.Capped ∧ out.len ≤ stringFoldByteLimit ∧
        out = numberSegment spelled.directive n.toInt.toNat := by
  have alone : spelled.template = spelling [.directive spelled] := (List.append_nil _).symm
  rw [sprintf_answers_iff]
  constructor
  · rintro ⟨within, pieces, spells, renders⟩
    rw [alone] at spells
    cases spelling_injective spells
    cases renders with
    | cons adds rest =>
        cases adds with
        | directive _ capped formatted =>
            cases rest
            rw [formatArg_number capped integer nonneg] at formatted
            cases formatted
            rw [List.append_nil] at within ⊢
            exact ⟨capped, within, rfl⟩
  · rintro ⟨capped, within, rfl⟩
    refine ⟨within, [.directive spelled], alone, ?_⟩
    have renders := Renders.cons (.directive [] capped (formatArg_number capped integer nonneg))
      Renders.nil
    rw [List.append_nil] at renders
    exact renders

end Single

/-! ## Layouts that agree -/

theorem padded_eq_layout (body sign : Text) (flags : Flags) (width : Option Nat)
    (precisionGiven : Bool) : padded body sign flags width precisionGiven =
      layout sign [] body flags (width.getD 0) precisionGiven := by
  simp [padded, layout]

section Layout

variable {lead digits : Text} {flags : Flags} {width : Nat} {given : Bool}

theorem length_layout (sign lead digits : Text) (flags : Flags) (width : Nat) (given : Bool) :
    (layout sign lead digits flags width given).length =
      max width (sign.length + lead.length + digits.length) := by
  simp only [layout]
  split
  · simp
    omega
  · split
    · simp
      omega
    · simp
      omega

/-- A sign is part of the layout. -/
theorem mem_layout_sign {c : Char} {sign : Text} (mem : c ∈ sign) :
    c ∈ layout sign lead digits flags width given := by
  simp only [layout]
  split
  · simp [mem]
  · split <;> simp [mem]

/-- What the layout contains. -/
theorem mem_layout {c : Char} {sign : Text} (mem : c ∈ layout sign lead digits flags width given) :
    c ∈ sign ∨ c ∈ lead ∨ c ∈ digits ∨ c = ' ' ∨ c = '0' := by
  have fill : ∀ (n : Nat) (d : Char), c ∈ List.replicate n d → c = d :=
    fun _ _ => List.eq_of_mem_replicate
  simp only [layout] at mem
  split at mem
  · simp only [List.mem_append] at mem
    rcases mem with ((inSign | inLead) | inDigits) | space
    · exact .inl inSign
    · exact .inr (.inl inLead)
    · exact .inr (.inr (.inl inDigits))
    · exact .inr (.inr (.inr (.inl (fill _ _ space))))
  · split at mem
    · simp only [List.mem_append] at mem
      rcases mem with ((inSign | inLead) | zero) | inDigits
      · exact .inl inSign
      · exact .inr (.inl inLead)
      · exact .inr (.inr (.inr (.inr (fill _ _ zero))))
      · exact .inr (.inr (.inl inDigits))
    · simp only [List.mem_append] at mem
      rcases mem with space | (inSign | inLead) | inDigits
      · exact .inr (.inr (.inr (.inl (fill _ _ space))))
      · exact .inl inSign
      · exact .inr (.inl inLead)
      · exact .inr (.inr (.inl inDigits))

/-- With a precision only spaces are filled in. -/
theorem countP_layout_given (sign lead digits : Text) (flags : Flags) (width : Nat) :
    (layout sign lead digits flags width true).countP (· ≠ ' ') =
      (sign ++ lead ++ digits).countP (· ≠ ' ') := by
  have spaces : ∀ n, (List.replicate n ' ').countP (· ≠ ' ') = 0 := by
    intro n
    rw [List.countP_eq_zero]
    intro c mem
    simp [List.eq_of_mem_replicate mem]
  simp only [layout]
  split
  · rw [List.countP_append, spaces, Nat.add_zero]
  · rw [if_neg (by simp), List.countP_append, spaces, Nat.zero_add]

/-- The zero fill is on: it stands before the digits. -/
def ZeroFills (flags : Flags) (given : Bool) : Prop :=
  flags.minus = false ∧ flags.zero = true ∧ given = false

/-- Without a sign a prefix of one zero, or none, may stand on either side of the fill. -/
theorem layout_lead_iff (zeros : lead = [] ∨ lead = ['0'] ∨ ∃ x, x ≠ '0' ∧ lead = ['0', x]) :
    layout [] [] (lead ++ digits) flags width given = layout [] lead digits flags width given ↔
      (2 ≤ lead.length ∧ ZeroFills flags given → width ≤ lead.length + digits.length) := by
  simp only [layout, List.nil_append, List.append_nil]
  by_cases minus : flags.minus = true
  · rw [if_pos minus, if_pos minus]
    apply iff_of_true rfl
    rintro ⟨_, fills⟩
    rw [fills.1] at minus
    cases minus
  · rw [if_neg minus, if_neg minus]
    by_cases fills : flags.zero = true ∧ ¬given = true
    · rw [if_pos fills, if_pos fills, List.length_append]
      generalize filled : width - (lead.length + digits.length) = fill
      rcases zeros with rfl | rfl | ⟨x, notZero, rfl⟩
      · exact iff_of_true rfl (fun big => absurd big.1 (by decide))
      · apply iff_of_true
        · rw [← List.append_assoc, ← List.replicate_succ', List.replicate_succ]
          rfl
        · exact fun big => absurd big.1 (by decide)
      · constructor
        · rintro same -
          rcases Nat.eq_zero_or_pos fill with none_ | positive
          · omega
          · rcases Nat.exists_eq_succ_of_ne_zero (Nat.ne_of_gt positive) with ⟨k, rfl⟩
            have second := congrArg (fun text => text[1]?) same
            cases k with
            | zero => simp at second; exact absurd second.symm notZero
            | succ k => simp [List.replicate_succ] at second; exact absurd second.symm notZero
        · intro fits
          have none_ : fill = 0 := by
            have := fits ⟨Nat.le_refl 2, Bool.not_eq_true _ ▸ minus, fills.1,
              Bool.not_eq_true _ ▸ fills.2⟩
            omega
          rw [none_]
          rfl
    · rw [if_neg fills, if_neg fills]
      apply iff_of_true rfl
      rintro ⟨_, filled⟩
      exact absurd ⟨filled.2.1, by simp [filled.2.2]⟩ fills

/-- A sign that is a space may only be left out where a space stands in its place. -/
theorem layout_space_iff (visible : ∀ c ∈ lead ++ digits, c ≠ ' ') :
    layout [] [] (lead ++ digits) flags width given = layout [' '] lead digits flags width given ↔
      lead.length + digits.length < width ∧
        (if flags.minus then lead ++ digits = [] else ¬ZeroFills flags given) := by
  have shorter : layout [] [] (lead ++ digits) flags width given =
      layout [' '] lead digits flags width given → lead.length + digits.length < width := by
    intro same
    have lengths := congrArg List.length same
    simp only [length_layout, List.length_append, List.length_nil, List.length_singleton] at lengths
    omega
  by_cases minus : flags.minus = true
  · rw [if_pos minus]
    constructor
    · intro same
      refine ⟨shorter same, ?_⟩
      simp only [layout, if_pos minus, List.nil_append] at same
      cases body : lead ++ digits with
      | nil => rfl
      | cons c more =>
          rw [body] at same
          injection same with head _
          exact absurd head (visible c (body ▸ List.mem_cons_self))
    · rintro ⟨shorter, empty⟩
      rcases List.append_eq_nil_iff.mp empty with ⟨rfl, rfl⟩
      rcases Nat.exists_eq_succ_of_ne_zero (Nat.ne_zero_of_lt shorter) with ⟨k, rfl⟩
      simp [layout, minus, List.replicate_succ]
  · rw [if_neg minus]
    have right : flags.minus = false := Bool.not_eq_true _ ▸ minus
    by_cases fills : ZeroFills flags given
    · apply iff_of_false
      · intro same
        have zeros : flags.zero = true ∧ ¬given = true := ⟨fills.2.1, by simp [fills.2.2]⟩
        have space : ' ' ∈ layout [' '] lead digits flags width given :=
          mem_layout_sign List.mem_cons_self
        rw [← same] at space
        simp only [layout, if_neg minus, if_pos zeros, List.nil_append] at space
        rcases List.mem_append.mp space with zero | inBody
        · exact absurd (List.eq_of_mem_replicate zero) (by decide)
        · exact visible ' ' inBody rfl
      · exact fun both => both.2 fills
    · refine ⟨fun same => ⟨shorter same, fills⟩, fun both => ?_⟩
      have spaces : ¬(flags.zero = true ∧ ¬given = true) := by
        rintro ⟨zero, notGiven⟩
        exact fills ⟨right, zero, Bool.not_eq_true _ ▸ notGiven⟩
      have one : width - (lead.length + digits.length) =
          width - (1 + (lead.length + digits.length)) + 1 := by
        omega
      simp only [layout, if_neg minus, if_neg spaces, List.nil_append, List.length_append,
        List.length_singleton, one, List.replicate_succ', List.append_assoc]

end Layout

/-! ## Prefixes -/

/-- The source puts a zero before octal digits under `#` exactly where Ruby does. -/
def KeepsOctal (d : Directive) (n : Nat) : Prop :=
  d.conv = 'o' → d.flags.hash = true →
    (n ≠ 0 → ∀ p ∈ d.precision, p ≤ (Nat.toDigits 8 n).length) ∧ (n = 0 → d.precision ≠ some 0)

theorem rubyDigits_octal (flags : Flags) (width precision : Option Nat) (n : Nat) :
    rubyDigits ⟨flags, width, precision, 'o'⟩ n =
      preciseDigits (n = 0) (Nat.toDigits 8 n) precision := by
  rw [rubyDigits, radixDigits]
  simp only [radixOf, Radix.value]
  congr 1
  exact List.map_id _

theorem head?_replicate_append (k : Nat) (digits : Text) (positive : 0 < k) :
    (List.replicate k '0' ++ digits).head? = some '0' := by
  rcases Nat.exists_eq_succ_of_ne_zero (Nat.ne_of_gt positive) with ⟨k, rfl⟩
  rfl

/-- The octal prefixes: they agree, or a precision is given and one of them is empty. -/
theorem octal_prefixes (flags : Flags) (width precision : Option Nat) (n : Nat)
    (hash : flags.hash = true) :
    let d : Directive := ⟨flags, width, precision, 'o'⟩
    (KeepsOctal d n ∧ rubyPrefix d n = radixPrefix d n) ∨
      (¬KeepsOctal d n ∧ precision.isSome ∧
        (rubyPrefix d n).length ≠ (radixPrefix d n).length) := by
  have ruby : rubyPrefix ⟨flags, width, precision, 'o'⟩ n =
      if (preciseDigits (n = 0) (Nat.toDigits 8 n) precision).head? = some '0' then []
      else ['0'] := by
    rw [← rubyDigits_octal flags width]
    exact if_pos hash
  have source : radixPrefix ⟨flags, width, precision, 'o'⟩ n = if n ≠ 0 then ['0'] else [] := by
    simp [radixPrefix, hash]
  intro d
  rw [ruby, source]
  by_cases zero : n = 0
  · subst zero
    cases precision with
    | none =>
        exact .inl ⟨fun _ _ => ⟨fun no => absurd rfl no, fun _ => (Option.some_ne_none 0).symm⟩, rfl⟩
    | some p =>
        by_cases none_ : p = 0
        · subst none_
          exact .inr ⟨fun keeps => (keeps rfl hash).2 rfl rfl, rfl, by decide⟩
        · left
          refine ⟨fun _ _ => ⟨fun no => absurd rfl no, fun _ => ?_⟩, ?_⟩
          · rintro ⟨⟩
            exact none_ rfl
          · have starts : (preciseDigits (0 = 0) (Nat.toDigits 8 0) (some p)).head? =
                some '0' := by
              rw [preciseDigits, if_neg (fun both => none_ both.2)]
              by_cases one : p - (Nat.toDigits 8 0).length = 0
              · rw [one]
                rfl
              · exact head?_replicate_append _ _ (Nat.pos_of_ne_zero one)
            rw [if_pos starts, if_neg (not_not.mpr rfl)]
  · have first := head?_toDigits_ne (b := 8) (by decide) (by decide) (Nat.pos_of_ne_zero zero)
    rw [if_pos zero]
    cases precision with
    | none =>
        left
        refine ⟨fun _ _ => ⟨?_, fun no => absurd no zero⟩, ?_⟩
        · rintro _ _ ⟨⟩
        · exact if_neg first
    | some p =>
        have digits : preciseDigits (n = 0) (Nat.toDigits 8 n) (some p) =
            List.replicate (p - (Nat.toDigits 8 n).length) '0' ++ Nat.toDigits 8 n :=
          if_neg (fun both => zero both.1)
        rw [digits]
        by_cases short : p ≤ (Nat.toDigits 8 n).length
        · left
          refine ⟨fun _ _ => ⟨fun _ => ?_, fun no => absurd no zero⟩, ?_⟩
          · rintro _ ⟨⟩
            exact short
          · rw [Nat.sub_eq_zero_of_le short]
            exact if_neg first
        · right
          refine ⟨fun keeps => short ((keeps rfl hash).1 zero p rfl), rfl, ?_⟩
          rw [if_pos (head?_replicate_append _ _ (Nat.sub_pos_of_lt (Nat.not_le.mp short)))]
          decide

theorem rubyPrefix_eq {d : Directive} {n : Nat} (keeps : KeepsOctal d n) :
    rubyPrefix d n = radixPrefix d n := by
  rcases d with ⟨flags, width, precision, conv⟩
  by_cases octal : conv = 'o' ∧ flags.hash = true
  · rcases octal with ⟨rfl, hash⟩
    rcases octal_prefixes flags width precision n hash with ⟨_, same⟩ | ⟨breaks, _⟩
    · exact same
    · exact absurd keeps breaks
  · simp only [rubyPrefix, radixPrefix]
    by_cases hash : flags.hash = true
    · have notOctal : conv ≠ 'o' := fun octal' => octal ⟨octal', hash⟩
      rw [if_pos hash]
      by_cases zero : n = 0
      · simp only [zero, if_true, ne_eq, not_true_eq_false, and_false, if_false]
        split <;> simp_all
      · simp only [hash, zero, if_false, ne_eq, not_false_eq_true, and_self, if_true]
        split <;> simp_all
    · rw [if_neg hash, if_neg (fun both => hash both.1)]

/-! ## Agreement -/

/-- The length of what the source writes between the spaces. -/
def bodyLength (d : Directive) (n : Nat) : Nat :=
  (radixPrefix d n).length + (rubyDigits d n).length

/-- A radix directive on which the source agrees with Ruby. -/
structure LaysOut (d : Directive) (n : Nat) : Prop where
  /-- No plus sign is asked for. -/
  plus : d.flags.plus = false
  /-- A space sign has a space in its place. -/
  space : d.flags.space = true → bodyLength d n < d.width.getD 0 ∧
    if d.flags.minus then bodyLength d n = 0 else ¬ZeroFills d.flags d.precision.isSome
  /-- No zeros come before a letter of the prefix. -/
  fill : d.flags.hash = true → n ≠ 0 → d.conv ≠ 'o' → ZeroFills d.flags d.precision.isSome →
    d.width.getD 0 ≤ bodyLength d n
  octal : KeepsOctal d n

theorem mem_radixPrefix {d : Directive} {n : Nat} {c : Char} (mem : c ∈ radixPrefix d n) :
    c ∈ ['0', 'x', 'X', 'b', 'B'] := by
  rw [radixPrefix] at mem
  split at mem
  · split at mem <;> simp_all <;> tauto
  · nomatch mem

theorem digitChar_visible : ∀ d < 16, ∀ upper : Bool,
    (if upper then d.digitChar.toUpper else d.digitChar) ≠ ' ' ∧
      (if upper then d.digitChar.toUpper else d.digitChar) ≠ '+' := by
  decide

theorem mem_rubyDigits {d : Directive} {n : Nat} {c : Char} (mem : c ∈ rubyDigits d n) :
    c ≠ ' ' ∧ c ≠ '+' := by
  have inDigits : ∀ c ∈ radixDigits n (radixOf d.conv) (d.conv = 'X'), c ≠ ' ' ∧ c ≠ '+' := by
    intro c mem
    rcases List.mem_map.mp mem with ⟨ch, inDigits, rfl⟩
    rcases exists_of_mem_toDigits (radixOf d.conv).two_le_value inDigits with ⟨digit, below, rfl⟩
    have atMost : (radixOf d.conv).value ≤ 16 := by cases radixOf d.conv <;> decide
    exact digitChar_visible digit (Nat.lt_of_lt_of_le below atMost) _
  rw [rubyDigits] at mem
  cases given : d.precision with
  | none =>
      rw [given] at mem
      exact inDigits c mem
  | some p =>
      rw [given, preciseDigits] at mem
      split at mem
      · cases mem
      · rcases List.mem_append.mp mem with fill | digit
        · rw [List.eq_of_mem_replicate fill]
          decide
        · exact inDigits c digit

section Agreement

variable {d : Directive} {n : Nat}

theorem body_visible : ∀ c ∈ radixPrefix d n ++ rubyDigits d n, c ≠ ' ' ∧ c ≠ '+' := by
  intro c mem
  rcases List.mem_append.mp mem with inPrefix | inDigits
  · have plain : ∀ c ∈ ['0', 'x', 'X', 'b', 'B'], c ≠ ' ' ∧ c ≠ '+' := by simp
    exact plain c (mem_radixPrefix inPrefix)
  · exact mem_rubyDigits inDigits

/-- The prefixes are none, a zero, or a zero and a letter. -/
theorem radixPrefix_cases (integer : d.conv ∈ integerConversions) (radix : d.conv ≠ 'd') :
    (radixPrefix d n = [] ∨ radixPrefix d n = ['0'] ∨
      ∃ x, x ≠ '0' ∧ radixPrefix d n = ['0', x]) ∧
    (2 ≤ (radixPrefix d n).length ↔ d.flags.hash = true ∧ n ≠ 0 ∧ d.conv ≠ 'o') := by
  rcases d with ⟨flags, width, precision, conv⟩
  simp only [integerConversions, List.mem_cons, List.not_mem_nil, or_false] at integer
  simp only [radixPrefix]
  by_cases shown : flags.hash = true ∧ n ≠ 0
  · rw [if_pos shown]
    rcases integer with rfl | rfl | rfl | rfl | rfl | rfl
    · exact absurd rfl radix
    all_goals simp [shown.1, shown.2]
  · rw [if_neg shown]
    refine ⟨.inl rfl, iff_of_false (by decide) ?_⟩
    rintro ⟨hash, positive, _⟩
    exact shown ⟨hash, positive⟩

theorem prefixes_of_not_keepsOctal (breaks : ¬KeepsOctal d n) : d.precision.isSome = true ∧
    (rubyPrefix d n).length ≠ (radixPrefix d n).length := by
  rcases d with ⟨flags, width, precision, conv⟩
  by_cases octal : conv = 'o' ∧ flags.hash = true
  · rcases octal with ⟨rfl, hash⟩
    rcases octal_prefixes flags width precision n hash with ⟨keeps, _⟩ | ⟨_, differ⟩
    · exact absurd keeps breaks
    · exact differ
  · exact absurd (fun isOctal hash => absurd ⟨isOctal, hash⟩ octal) breaks

theorem countP_visible {text : Text} (visible : ∀ c ∈ text, c ∈ ['0', 'x', 'X', 'b', 'B']) :
    text.countP (· ≠ ' ') = text.length := by
  rw [List.countP_eq_length]
  intro c mem
  have plain : ∀ c ∈ ['0', 'x', 'X', 'b', 'B'], decide (c ≠ ' ') = true := by simp
  exact plain c (visible c mem)

theorem countP_radixPrefix : (radixPrefix d n).countP (· ≠ ' ') = (radixPrefix d n).length :=
  countP_visible (fun _ => mem_radixPrefix)

theorem countP_rubyPrefix : (rubyPrefix d n).countP (· ≠ ' ') = (rubyPrefix d n).length := by
  apply countP_visible
  intro c mem
  rw [rubyPrefix] at mem
  split at mem
  · split at mem
    case h_6 => nomatch mem
    all_goals
      split at mem
      · nomatch mem
      · simp only [List.mem_cons, List.not_mem_nil, or_false] at mem ⊢
        tauto
  · nomatch mem

theorem countP_rubySign {flags : Flags} (noPlus : ¬flags.plus = true) :
    (rubySign flags).countP (· ≠ ' ') = 0 := by
  rw [rubySign, if_neg noPlus]
  split <;> rfl

/-- A radix directive is laid out as Ruby does exactly under the condition. -/
theorem numberSegment_eq_iff (integer : d.conv ∈ integerConversions) (radix : d.conv ≠ 'd') :
    numberSegment d n = rubyLayout d n ↔ LaysOut d n := by
  rw [numberSegment, if_neg radix, padded_eq_layout, rubyLayout]
  by_cases plus : d.flags.plus = true
  · apply iff_of_false
    · intro same
      have sign : '+' ∈ layout (rubySign d.flags) (rubyPrefix d n) (rubyDigits d n) d.flags
          (d.width.getD 0) d.precision.isSome := by
        apply mem_layout_sign
        rw [rubySign, if_pos plus]
        exact List.mem_cons_self
      rw [← same] at sign
      rcases mem_layout sign with none_ | none_ | inBody | other
      · cases none_
      · cases none_
      · exact (body_visible '+' inBody).2 rfl
      · exact absurd other (by decide)
    · intro laysOut
      rw [laysOut.plus] at plus
      cases plus
  · have noPlus : d.flags.plus = false := Bool.not_eq_true _ ▸ plus
    by_cases keeps : KeepsOctal d n
    · rw [rubyPrefix_eq keeps, rubySign, if_neg plus]
      rcases radixPrefix_cases (n := n) integer radix with ⟨prefixes, long⟩
      by_cases space : d.flags.space = true
      · rw [if_pos space, layout_space_iff (fun c mem => (body_visible c mem).1)]
        have empty : radixPrefix d n ++ rubyDigits d n = [] ↔ bodyLength d n = 0 := by
          rw [← List.length_eq_zero_iff, List.length_append, bodyLength]
        rw [empty]
        refine ⟨fun inPlace => ⟨noPlus, fun _ => inPlace, fun _ _ _ fills => ?_, keeps⟩,
          fun laysOut => laysOut.space space⟩
        have unfilled := inPlace.2
        rw [if_neg (by simp [fills.1])] at unfilled
        exact absurd fills unfilled
      · rw [if_neg space, layout_lead_iff prefixes, long]
        constructor
        · intro fits
          exact ⟨noPlus, fun yes => absurd yes space,
            fun hash positive letter fills => fits ⟨⟨hash, positive, letter⟩, fills⟩, keeps⟩
        · rintro laysOut ⟨⟨hash, positive, letter⟩, fills⟩
          exact laysOut.fill hash positive letter fills
    · apply iff_of_false
      · rcases prefixes_of_not_keepsOctal keeps with ⟨given, differ⟩
        intro same
        have counts := congrArg (List.countP (· ≠ ' ')) same
        rw [given, countP_layout_given, countP_layout_given, List.nil_append, List.nil_append,
          List.countP_append, List.countP_append, List.countP_append, countP_rubySign plus,
          countP_radixPrefix, countP_rubyPrefix] at counts
        omega
      · exact fun laysOut => keeps laysOut.octal

/-- A decimal directive is laid out as Ruby does. -/
theorem numberSegment_eq_of_decimal (decimal : d.conv = 'd') :
    numberSegment d n = rubyLayout d n := by
  have noPrefix : rubyPrefix d n = [] := by
    simp only [rubyPrefix, decimal]
    exact ite_self _
  rw [numberSegment, if_pos decimal, padded_eq_layout, rubyLayout, noPrefix]

theorem len_numberSegment (radix : d.conv ≠ 'd') :
    (numberSegment d n).len = max (d.width.getD 0) (bodyLength d n) := by
  rw [numberSegment, if_neg radix, padded_eq_layout, Text.len_of_ascii, length_layout,
    List.length_append, bodyLength, List.length_nil, Nat.add_zero, Nat.zero_add]
  apply List.all_eq_true.mpr
  intro c mem
  rcases mem_layout mem with none_ | none_ | inBody | rfl | rfl
  · nomatch none_
  · nomatch none_
  · rcases List.mem_append.mp inBody with inPrefix | inDigits
    · have plain : ∀ c ∈ ['0', 'x', 'X', 'b', 'B'], decide (c.val < 128) = true := by simp
      exact plain c (mem_radixPrefix inPrefix)
    · have ascii := isAscii_preciseDigits (n = 0)
        (isAscii_radixDigits n (radixOf d.conv) (d.conv = 'X')) d.precision
      exact List.all_eq_true.mp ascii c inDigits
  · decide
  · decide

end Agreement

/-- A radix directive that is not rendered: over the limit in itself or in its result. -/
def Declines (d : Directive) (n : Nat) : Prop :=
  ¬d.Capped ∨ stringFoldByteLimit < max (d.width.getD 0) (bodyLength d n)

/--
A directive of a natural number is laid out as Ruby does exactly if it is decimal, or the signs,
zeros and prefixes that it asks for are those that the source puts in place, or it is declined.
-/
theorem layout_iff (spelled : Spelled) (integer : spelled.conv ∈ integerConversions) (n : Int64)
    (nonneg : 0 ≤ n.toInt) :
    (∀ out, Fuel.Returns (sprintf spelled.template [.int n]) (.ok (some out)) →
      out = rubyLayout spelled.directive n.toInt.toNat) ↔
      spelled.conv = 'd' ∨ LaysOut spelled.directive n.toInt.toNat ∨
        Declines spelled.directive n.toInt.toNat := by
  simp only [sprintf_template spelled integer nonneg]
  by_cases decimal : spelled.conv = 'd'
  · apply iff_of_true
    · rintro out ⟨_, _, rfl⟩
      exact numberSegment_eq_of_decimal decimal
    · exact .inl decimal
  · have radix : spelled.directive.conv ≠ 'd' := decimal
    have agrees : numberSegment spelled.directive n.toInt.toNat = _ ↔ _ :=
      numberSegment_eq_iff integer radix
    have length : (numberSegment spelled.directive n.toInt.toNat).len = _ :=
      len_numberSegment radix
    constructor
    · intro same
      right
      by_cases declines : Declines spelled.directive n.toInt.toNat
      · exact .inr declines
      · rw [Declines, not_or, not_not, Nat.not_lt, ← length] at declines
        exact .inl (agrees.mp (same _ ⟨declines.1, declines.2, rfl⟩))
    · rintro (isDecimal | laysOut | declines) out ⟨capped, within, rfl⟩
      · exact absurd isDecimal decimal
      · exact agrees.mpr laysOut
      · rw [length] at within
        rcases declines with uncapped | beyond
        · exact absurd capped uncapped
        · exact absurd within (Nat.not_le.mpr beyond)

/-- `%6X`. -/
def sixWide : Spelled where
  flags := []
  width := ['6']
  precision := none
  conv := 'X'
  flags_ok := nofun
  width_ok := by simp
  width_start := by decide
  precision_ok := nofun
  conv_ok := by decide

theorem layout_iff_sixWide :
    (∀ out, Fuel.Returns (sprintf ['%', '6', 'X'] [.int 255]) (.ok (some out)) →
      out = rubyLayout sixWide.directive 255) ↔
      sixWide.conv = 'd' ∨ LaysOut sixWide.directive 255 ∨ Declines sixWide.directive 255 :=
  layout_iff sixWide (by decide) 255 (by decide)

/-- `%+x`. -/
def plusHex : Spelled where
  flags := ['+']
  width := []
  precision := none
  conv := 'x'
  flags_ok := by simp [isFlag]
  width_ok := nofun
  width_start := by decide
  precision_ok := nofun
  conv_ok := by decide

theorem not_layout_plusHex :
    ¬∀ out, Fuel.Returns (sprintf ['%', '+', 'x'] [.int 255]) (.ok (some out)) →
      out = rubyLayout plusHex.directive 255 := by
  intro agrees
  have rendered : Fuel.Returns (sprintf plusHex.template [.int 255])
      (.ok (some (numberSegment plusHex.directive 255))) :=
    (sprintf_template plusHex (by decide) (by decide) _).mpr ⟨⟨nofun, nofun⟩, by decide, rfl⟩
  exact absurd (agrees _ rendered) (by decide)

end Rigor.Infer.KernelFold
