import Rigor.Infer.KernelFold.IntegerStr
import Rigor.Library.Trimming
import Rigor.Rust.Digits

/-!
# `Kernel#Integer` in the configuration

`ruby_integer` of `config.rs` reads the numerals that `parse_ruby_integer_str` of the folding reads.
The two differ in the white space around a numeral.
-/

namespace Rigor.Cli.Config

open Rigor.Infer.KernelFold Rigor.Library.Numerals Rigor.Library.Trimming Rigor.Rust

/-! ## The parser -/

/-- White space as Ruby has it, with the vertical tab. -/
def isRubySpace (c : Char) : Bool :=
  c = ' ' || c = '\t' || c = '\n' || c = '\x0b' || c = '\x0c' || c = '\r'

/-- The bounds of `i128`. -/
def saturate (value : Int) : Int :=
  max (-2 ^ 127) (min value (2 ^ 127 - 1))

/-- The loop over the digits. -/
def scanDigits (radix : Nat) : Int → Text → Option Int
  | value, [] => some value
  | value, c :: rest =>
      if c = '_' then
        match rest.head?.bind (toDigit radix) with
        | none => none
        | some _ => scanDigits radix value rest
      else
        match toDigit radix c with
        | none => none
        | some d => scanDigits radix (saturate (saturate (value * radix) + d)) rest

/-- The digits in their radix, with the sign. -/
def readDigits (neg : Bool) (radix : Nat) (digits : Text) : Option Int :=
  if digits = [] then none
  else if digits.head? = some '_' ∨ digits.getLast? = some '_' then none
  else (scanDigits radix 0 digits).map fun value => if neg then -value else value

def rubyInteger (s : Text) : Option Int :=
  let t := trimMatches isRubySpace s
  let (neg, body) : Bool × Text :=
    match t with
    | '-' :: b => (true, b)
    | '+' :: b => (false, b)
    | _ => (false, t)
  match body with
  | [] => none
  | ['0'] => some 0
  | '0' :: c :: rest =>
      if c = 'x' ∨ c = 'X' then readDigits neg 16 rest
      else if c = 'b' ∨ c = 'B' then readDigits neg 2 rest
      else if c = 'o' ∨ c = 'O' then readDigits neg 8 rest
      else if c = 'd' ∨ c = 'D' then readDigits neg 10 rest
      else readDigits neg 8 body
  | _ => readDigits neg 10 body

/-! ## Digits -/

theorem toDigit_eq_some_iff {radix d : Nat} {c : Char} :
    toDigit radix c = some d ↔ alphabet.IsDigit radix c d := by
  have same : toDigit radix c = (toDigit36 c).filter fun d => d < radix := rfl
  rw [same, Option.filter_eq_some_iff, decide_eq_true_eq]
  rfl

/-- A value that is cut off at the greatest `i128`. -/
def cut (value : Nat) : Int :=
  min (value : Int) (2 ^ 127 - 1)

theorem saturate_step (value radix d : Nat) :
    saturate (saturate (cut value * radix) + d) = cut (value * radix + d) := by
  have product : ((value * radix + d : Nat) : Int) = (value : Int) * radix + d := by
    rw [Int.natCast_add, Int.natCast_mul]
  rw [cut, cut, product]
  rcases Nat.eq_zero_or_pos radix with rfl | positive
  · simp only [saturate, Int.natCast_zero, Int.mul_zero, Int.zero_add]
    omega
  · by_cases small : (value : Int) ≤ 2 ^ 127 - 1
    · rw [min_eq_left small]
      have nonneg : 0 ≤ (value : Int) * radix := by
        rw [← Int.natCast_mul]
        exact Int.natCast_nonneg _
      simp only [saturate]
      omega
    · have one : (1 : Int) ≤ radix := by omega
      have grows : (value : Int) ≤ value * radix := le_mul_of_one_le_right (by omega) one
      have bound : (2 ^ 127 - 1 : Int) ≤ (2 ^ 127 - 1) * radix :=
        le_mul_of_one_le_right (by omega) one
      rw [min_eq_right (by omega)]
      simp only [saturate]
      omega

theorem not_digitRun_of_toDigit {radix : Nat} {c : Char} (digit : toDigit radix c = none) (rest : Text)
    (ds : List Nat) : ¬ DigitRun alphabet radix (c :: rest) ds := by
  intro digits
  rcases digitRun_cons_iff.mp digits with ⟨d, _, _, isDigit, -⟩
  rw [toDigit_eq_some_iff.mpr isDigit] at digit
  nomatch digit

/-- The loop reads what may follow a digit. -/
theorem scanDigits_iff {radix acc : Nat} {text : Text} {result : Int} :
    scanDigits radix (cut acc) text = some result ↔
      ∃ ds, Continues alphabet radix text ds ∧ result = cut (value radix acc ds) := by
  induction text generalizing acc with
  | nil =>
      constructor
      · rintro ⟨⟩
        exact ⟨[], .inl ⟨rfl, rfl⟩, rfl⟩
      · rintro ⟨ds, ⟨-, rfl⟩ | digits | ⟨run, same, -⟩, rfl⟩
        · rfl
        · exact absurd rfl digits.ne_nil
        · nomatch same
  | cons c rest ih =>
      by_cases underscore : c = '_'
      · subst underscore
        have separated : ∀ ds, Continues alphabet radix ('_' :: rest) ds ↔
            DigitRun alphabet radix rest ds := fun _ => continues_separator_iff
        rw [scanDigits, if_pos rfl]
        simp only [separated]
        cases rest with
        | nil => exact iff_of_false nofun (fun ⟨_, digits, _⟩ => digits.ne_nil rfl)
        | cons next rest =>
            rw [List.head?_cons, Option.bind_some]
            cases digit : toDigit radix next with
            | none =>
                exact iff_of_false nofun fun ⟨_, digits, _⟩ => not_digitRun_of_toDigit digit _ _ digits
            | some d =>
                have plain : next ≠ '_' := by
                  rintro rfl
                  have isDigit := (toDigit_eq_some_iff.mp digit).1
                  nomatch isDigit
                have continues : ∀ ds, Continues alphabet radix (next :: rest) ds ↔
                    DigitRun alphabet radix (next :: rest) ds := fun _ => continues_cons_iff plain
                simp only [ih, continues]
      · have plain : ∀ ds, Continues alphabet radix (c :: rest) ds ↔
            DigitRun alphabet radix (c :: rest) ds := fun _ => continues_cons_iff underscore
        rw [scanDigits, if_neg underscore]
        simp only [plain]
        cases digit : toDigit radix c with
        | none =>
            exact iff_of_false nofun fun ⟨_, digits, _⟩ => not_digitRun_of_toDigit digit _ _ digits
        | some d =>
            simp only [saturate_step, ih]
            constructor
            · rintro ⟨ds, after, rfl⟩
              exact ⟨d :: ds, digitRun_cons_iff.mpr ⟨d, ds, rfl, toDigit_eq_some_iff.mp digit, after⟩, rfl⟩
            · rintro ⟨es, digits, rfl⟩
              rcases digitRun_cons_iff.mp digits with ⟨d', ds, rfl, isDigit, after⟩
              rw [toDigit_eq_some_iff.mpr isDigit, Option.some.injEq] at digit
              exact ⟨ds, after, by rw [value_cons, digit]⟩

theorem getLast?_digitRun {radix : Nat} {run : Text} {ds : List Nat}
    (digits : DigitRun alphabet radix run ds) : run.getLast? ≠ some '_' := by
  have visible : ∀ {c : Char} {d : Nat}, alphabet.IsDigit radix c d → c ≠ '_' := by
    rintro c d ⟨digit, -⟩ rfl
    nomatch digit
  induction digits with
  | last digit => exact fun same => visible digit (Option.some.inj same)
  | digit _ rest ih =>
      rwa [List.getLast?_cons_of_ne_nil rest.ne_nil]
  | separated _ rest ih =>
      rwa [List.getLast?_cons_cons, List.getLast?_cons_of_ne_nil rest.ne_nil]

/-- The value with its sign. -/
def signed (neg : Bool) (value : Int) : Int :=
  if neg then -value else value

theorem readDigits_iff {neg : Bool} {radix : Nat} {digits : Text} {result : Int} :
    readDigits neg radix digits = some result ↔ ∃ ds, DigitRun alphabet radix digits ds ∧
      result = signed neg (cut (value radix 0 ds)) := by
  have zero : (0 : Int) = cut 0 := rfl
  rw [readDigits]
  by_cases empty : digits = []
  · rw [if_pos empty]
    exact iff_of_false nofun (fun ⟨_, run, _⟩ => run.ne_nil empty)
  · rw [if_neg empty]
    by_cases ends : digits.head? = some '_' ∨ digits.getLast? = some '_'
    · rw [if_pos ends]
      refine iff_of_false nofun ?_
      rintro ⟨ds, run, -⟩
      rcases ends with first | last
      · rcases List.head?_eq_some_iff.mp first with ⟨rest, rfl⟩
        exact not_digitRun_separator run
      · exact getLast?_digitRun run last
    · rw [if_neg ends, zero, Option.map_eq_some_iff]
      rcases List.exists_cons_of_ne_nil empty with ⟨c, rest, rfl⟩
      have plain : c ≠ '_' := fun same => ends (.inl (congrArg some same))
      have continues : ∀ ds, Continues alphabet radix (c :: rest) ds ↔
          DigitRun alphabet radix (c :: rest) ds := fun _ => continues_cons_iff plain
      simp only [scanDigits_iff, continues]
      constructor
      · rintro ⟨_, ⟨ds, run, rfl⟩, rfl⟩
        exact ⟨ds, run, rfl⟩
      · rintro ⟨ds, run, rfl⟩
        exact ⟨_, ⟨ds, run, rfl⟩, rfl⟩

/-- The reader of the digits reads a grammar whose texts are digit runs. -/
theorem readDigits_iff_of_reads {neg : Bool} {radix : Nat} {digits : Text} {result : Int}
    {Reads : Nat → Prop}
    (reads : ∀ n, Reads n ↔ ∃ ds, DigitRun alphabet radix digits ds ∧ n = value radix 0 ds) :
    readDigits neg radix digits = some result ↔ ∃ n, Reads n ∧ result = signed neg (cut n) := by
  rw [readDigits_iff]
  simp only [reads]
  constructor
  · rintro ⟨ds, run, rfl⟩
    exact ⟨_, ⟨ds, run, rfl⟩, rfl⟩
  · rintro ⟨_, ⟨ds, run, rfl⟩, rfl⟩
    exact ⟨ds, run, rfl⟩

/-! ## Prefixes -/

/-- The radix of a letter after the leading zero. -/
def letterRadix (c : Char) : Option Nat :=
  if c = 'x' ∨ c = 'X' then some 16
  else if c = 'b' ∨ c = 'B' then some 2
  else if c = 'o' ∨ c = 'O' then some 8
  else if c = 'd' ∨ c = 'D' then some 10
  else none

theorem toNat_toLower (c : Char) :
    c.toLower.toNat = if 65 ≤ c.toNat ∧ c.toNat ≤ 90 then c.toNat + 32 else c.toNat := by
  have upper : (c.val ≥ 'A'.val ∧ c.val ≤ 'Z'.val) ↔ 65 ≤ c.toNat ∧ c.toNat ≤ 90 := by
    rw [ge_iff_le, UInt32.le_iff_toNat_le, UInt32.le_iff_toNat_le]
    rfl
  by_cases inside : c.val ≥ 'A'.val ∧ c.val ≤ 'Z'.val
  · have bound := upper.mp inside
    have lowered : c.toLower.val = c.val + ('a'.val - 'A'.val) := congrArg Char.val (dif_pos inside)
    rw [if_pos bound]
    change c.toLower.val.toNat = c.toNat + 32
    rw [lowered, UInt32.toNat_add]
    change (c.toNat + 32) % 2 ^ 32 = c.toNat + 32
    omega
  · have same : c.toLower = c := dif_neg inside
    rw [same, if_neg (fun bound => inside (upper.mpr bound))]

/-- Only the two cases of a letter have its lower case. -/
theorem toLower_eq_iff {c lower upper : Char} (letter : 65 ≤ upper.toNat ∧ upper.toNat ≤ 90)
    (same : lower.toNat = upper.toNat + 32) : c.toLower = lower ↔ c = lower ∨ c = upper := by
  simp only [← Char.toNat_inj, toNat_toLower]
  split <;> omega

theorem markerBase_eq (c : Char) : markerBase c = letterRadix c := by
  have x := @toLower_eq_iff c 'x' 'X' (by decide) (by decide)
  have b := @toLower_eq_iff c 'b' 'B' (by decide) (by decide)
  have o := @toLower_eq_iff c 'o' 'O' (by decide) (by decide)
  have d := @toLower_eq_iff c 'd' 'D' (by decide) (by decide)
  simp only [letterRadix, ← x, ← b, ← o, ← d, markerBase]
  split <;> simp_all

/-! ## The numerals of the configuration -/

theorem sign_eq (t : Text) :
    (match t with
    | '-' :: b => (true, b)
    | '+' :: b => (false, b)
    | _ => (false, t) : Bool × Text) = stripSign t := by
  unfold stripSign
  split
  · rfl
  · rfl
  · rename_i notMinus notPlus
    split
    · exact absurd rfl (notPlus _)
    · exact absurd rfl (notMinus _)
    · rfl

/-- The text after the sign is a body of the grammar. -/
theorem readUnsigned_iff {neg : Bool} {body : Text} {result : Int} :
    (match body with
    | [] => none
    | ['0'] => some 0
    | '0' :: c :: rest =>
        if c = 'x' ∨ c = 'X' then readDigits neg 16 rest
        else if c = 'b' ∨ c = 'B' then readDigits neg 2 rest
        else if c = 'o' ∨ c = 'O' then readDigits neg 8 rest
        else if c = 'd' ∨ c = 'D' then readDigits neg 10 rest
        else readDigits neg 8 body
    | _ => readDigits neg 10 body) = some result ↔
      ∃ n, Body none body n ∧ result = signed neg (cut n) := by
  have plainBody : (∀ next more, body ≠ '0' :: next :: more) → ∀ {n : Nat},
      (Body none body n ↔ ∃ ds, DigitRun alphabet 10 body ds ∧ n = value 10 0 ds) := by
    intro noPrefix n
    have ten : ((none : Option Int64).getD 10).toInt = (10 : Nat) := by decide
    rw [body_plain_iff noPrefix]
    constructor
    · rintro ⟨effective, ⟨chosen, -⟩, reads⟩
      cases Int.ofNat.inj (ten.symm.trans chosen)
      exact reads
    · exact fun reads => ⟨10, ⟨ten, by decide⟩, reads⟩
  split
  case h_1 =>
    refine iff_of_false nofun ?_
    rintro ⟨n, reads, -⟩
    rcases body_head reads with ⟨_, _, same, -⟩
    nomatch same
  case h_2 =>
    have zero : DigitRun alphabet 10 ['0'] [0] := .last ⟨by decide, by decide⟩
    simp only [plainBody (by simp)]
    constructor
    · rintro ⟨⟩
      exact ⟨0, ⟨[0], zero, rfl⟩, by cases neg <;> rfl⟩
    · rintro ⟨_, ⟨ds, digits, rfl⟩, rfl⟩
      rw [digits.unique zero]
      cases neg <;> rfl
  case h_3 c rest =>
    cases marker : markerBase c with
    | some implied =>
        have agrees : Agrees none implied := nofun
        have reads : ∀ n, Body none ('0' :: c :: rest) n ↔
            ∃ ds, DigitRun alphabet implied rest ds ∧ n = value implied 0 ds := fun _ =>
          (body_marked_iff marker).trans (and_iff_right agrees)
        have chosen : (if c = 'x' ∨ c = 'X' then readDigits neg 16 rest
            else if c = 'b' ∨ c = 'B' then readDigits neg 2 rest
            else if c = 'o' ∨ c = 'O' then readDigits neg 8 rest
            else if c = 'd' ∨ c = 'D' then readDigits neg 10 rest
            else readDigits neg 8 ('0' :: c :: rest)) = readDigits neg implied rest := by
          rw [markerBase_eq, letterRadix] at marker
          split_ifs at marker ⊢ <;> cases marker <;> rfl
        rw [chosen]
        exact readDigits_iff_of_reads reads
    | none =>
        have agrees : Agrees none 8 := nofun
        have reads : ∀ n, Body none ('0' :: c :: rest) n ↔
            ∃ ds, DigitRun alphabet 8 ('0' :: c :: rest) ds ∧ n = value 8 0 ds := fun _ =>
          (body_octal_iff marker).trans (and_iff_right agrees)
        have chosen : (if c = 'x' ∨ c = 'X' then readDigits neg 16 rest
            else if c = 'b' ∨ c = 'B' then readDigits neg 2 rest
            else if c = 'o' ∨ c = 'O' then readDigits neg 8 rest
            else if c = 'd' ∨ c = 'D' then readDigits neg 10 rest
            else readDigits neg 8 ('0' :: c :: rest)) = readDigits neg 8 ('0' :: c :: rest) := by
          rw [markerBase_eq, letterRadix] at marker
          split_ifs at marker ⊢
          rfl
        rw [chosen]
        exact readDigits_iff_of_reads reads
  case h_4 notPrefixed =>
    exact readDigits_iff_of_reads fun _ => plainBody notPrefixed

/-- In the range of `i64` nothing is cut off. -/
theorem signed_cut_iff {neg : Bool} {n : Nat} {v : Int64} :
    v.toInt = signed neg (cut n) ↔ v.toInt = if neg then -(n : Int) else n := by
  have bounds := toInt_bounds v
  cases neg with
  | false =>
      change v.toInt = cut n ↔ v.toInt = n
      rw [cut]
      omega
  | true =>
      change v.toInt = -cut n ↔ v.toInt = -n
      rw [cut]
      omega

theorem rubyInteger_eq_some_iff (s : Text) (v : Int64) :
    rubyInteger s = some v.toInt ↔ Numeral none (trimMatches isRubySpace s) v.toInt := by
  simp only [rubyInteger, sign_eq, readUnsigned_iff, signed_cut_iff, numeral_iff]

/-! ## The white space around a numeral -/

/-- White space is no digit and no marker. -/
theorem not_digit_of_isRubySpace {c : Char} (space : isRubySpace c = true) :
    toDigit36 c = none ∧ markerBase c = none := by
  simp only [isRubySpace, Bool.or_eq_true, decide_eq_true_eq] at space
  rcases space with ((((rfl | rfl) | rfl) | rfl) | rfl) | rfl <;> decide

theorem digitRun_visible {base : Nat} {run : Text} {ds : List Nat}
    (digits : DigitRun alphabet base run ds) : ∀ c ∈ run, isRubySpace c = false := by
  intro c mem
  rcases digits.mem mem with rfl | ⟨d, digit, -⟩
  · decide
  · apply Bool.eq_false_iff.mpr
    intro space
    nomatch digit.symm.trans (not_digit_of_isRubySpace space).1

theorem body_visible {body : Text} {n : Nat} (reads : Body none body n) :
    ∀ c ∈ body, isRubySpace c = false := by
  cases reads with
  | marked marker _ digits =>
      intro c mem
      rcases List.mem_cons.mp mem with rfl | later
      · decide
      · rcases List.mem_cons.mp later with rfl | inDigits
        · apply Bool.eq_false_iff.mpr
          intro space
          nomatch marker.symm.trans (not_digit_of_isRubySpace space).2
        · exact digitRun_visible digits c inDigits
  | octal _ _ digits => exact digitRun_visible digits
  | plain _ _ _ digits => exact digitRun_visible digits

theorem numeral_visible {core : Text} {v : Int} (numeral : Numeral none core v) :
    ∀ c ∈ core, isRubySpace c = false := by
  have signs : ∀ {sign : Char} {body : Text} {n : Nat}, isRubySpace sign = false →
      Body none body n → ∀ c ∈ sign :: body, isRubySpace c = false := by
    intro sign body n visible reads c mem
    rcases List.mem_cons.mp mem with rfl | later
    · exact visible
    · exact body_visible reads c later
  cases numeral with
  | unsigned reads => exact body_visible reads
  | plus reads => exact signs (by decide) reads
  | minus reads => exact signs (by decide) reads

/-- Between the white space of the folding stands all of the numeral. -/
theorem trim_of_numeral {s : Text} {v : Int}
    (numeral : Numeral none (trimMatches isAsciiWhitespace s) v) :
    trimMatches isRubySpace s = trimMatches isAsciiWhitespace s := by
  have wider : ∀ {c : Char}, isAsciiWhitespace c = true → isRubySpace c = true := by
    intro c space
    simp only [isAsciiWhitespace, isRubySpace, Bool.or_eq_true, decide_eq_true_eq] at space ⊢
    tauto
  rcases exists_strip isAsciiWhitespace s with ⟨front, back, same, before, after⟩
  calc trimMatches isRubySpace s
      = strip isRubySpace (front ++ strip isAsciiWhitespace s ++ back) := by
        rw [← same]
        rfl
    _ = trimMatches isAsciiWhitespace s :=
        strip_append_of_outside (fun c mem => wider (before c mem)) (numeral_visible numeral)
          (fun c mem => wider (after c mem))

/--
The two ports agree on a string unless a vertical tab stands in the white space around a numeral that
fits an `i64`.
-/
theorem rubyInteger_agrees_iff (s : Text) :
    (∀ v : Int64, rubyInteger s = some v.toInt ↔ parseRubyIntegerStr s none = some v) ↔
      trimMatches isRubySpace s = trimMatches isAsciiWhitespace s ∨
        ¬∃ v : Int64, Numeral none (trimMatches isRubySpace s) v.toInt := by
  simp only [rubyInteger_eq_some_iff, parseRubyIntegerStr_eq_some_iff]
  constructor
  · intro agree
    by_cases numeral : ∃ v : Int64, Numeral none (trimMatches isRubySpace s) v.toInt
    · rcases numeral with ⟨v, numeral⟩
      exact .inl (trim_of_numeral ((agree v).mp numeral))
    · exact .inr numeral
  · rintro (same | noNumeral) v
    · rw [same]
    · constructor
      · exact fun numeral => absurd ⟨v, numeral⟩ noNumeral
      · intro numeral
        rw [trim_of_numeral numeral]
        exact numeral

/-- A vertical tab before a numeral is white space only in the configuration. -/
theorem not_rubyInteger_agrees : ¬∀ (s : Text) (v : Int64),
    rubyInteger s = some v.toInt ↔ parseRubyIntegerStr s none = some v := by
  intro agree
  have declined := (agree ['\x0b', '5'] 5).mp (by decide)
  exact absurd declined (by decide)

end Rigor.Cli.Config
