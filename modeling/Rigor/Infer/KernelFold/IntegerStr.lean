import Mathlib.Data.List.DropRight
import Rigor.Library.Numerals
import Rigor.Rust.Digits
import Rigor.Rust.Str

/-!
# `Kernel#Integer` of a string

`parse_ruby_integer_str`, the grammar that it accepts, and the spellings that it reads back.
-/

namespace Rigor.Infer.KernelFold

open Rigor.Library.Numerals Rigor.Rust

/-! ## The parser -/

/-- `char::is_ascii_whitespace`: no vertical tab. -/
def isAsciiWhitespace (c : Char) : Bool :=
  c = ' ' || c = '\t' || c = '\n' || c = '\x0c' || c = '\r'

/-- `trim_matches`. -/
def trimMatches (p : Char → Bool) (text : Text) : Text :=
  (text.dropWhile p).rdropWhile p

/-- `char::to_digit(36)`. -/
def toDigit36 (c : Char) : Option Nat :=
  if c.isDigit then some (c.toNat - '0'.toNat)
  else if c.isLower then some (c.toNat - 'a'.toNat + 10)
  else if c.isUpper then some (c.toNat - 'A'.toNat + 10)
  else none

/-- `strip_ci_prefix` of the marker of a letter. -/
def stripCiPrefix (letter : Char) : Text → Option Text
  | a :: b :: rest => if a = '0' ∧ b.toLower = letter then some rest else none
  | _ => none

/-- The sign, and the rest. -/
def stripSign : Text → Bool × Text
  | '+' :: rest => (false, rest)
  | '-' :: rest => (true, rest)
  | rest => (false, rest)

/-- The base of a radix prefix and the text after it.  A leading `0` stays a digit. -/
def prefixBase (rest : Text) : Option Int64 × Text :=
  match stripCiPrefix 'x' rest with
  | some r => (some 16, r)
  | none =>
      match stripCiPrefix 'b' rest with
      | some r => (some 2, r)
      | none =>
          match stripCiPrefix 'o' rest with
          | some r => (some 8, r)
          | none =>
              match stripCiPrefix 'd' rest with
              | some r => (some 10, r)
              | none =>
                  if rest.length > 1 ∧ rest.head? = some '0' then (some 8, rest) else (none, rest)

/-- The base to read in: that of the prefix has to agree with the argument. -/
def effectiveBase (base implied : Option Int64) : Option Int64 :=
  match base, implied with
  | none, none => some 10
  | none, some b => some b
  | some b, none => some b
  | some b, some pb => if b = pb then some b else none

/-- An `i128` that is checked. -/
def narrow128 (value : Int) : Option Int :=
  if -2 ^ 127 ≤ value ∧ value < 2 ^ 127 then some value else none

/-- The loop over the digits; the second result is `saw_digit`. -/
def digitLoop (base : Int) : Int → Bool → Bool → Text → Option (Int × Bool)
  | acc, _, sawDigit, [] => some (acc, sawDigit)
  | acc, prevWasDigit, sawDigit, b :: rest =>
      if b = '_' then
        if ¬prevWasDigit ∨ rest = [] then none else digitLoop base acc false sawDigit rest
      else
        match toDigit36 b with
        | none => none
        | some d =>
            if (d : Int) ≥ base then none
            else
              match (narrow128 (acc * base)).bind fun product => narrow128 (product + d) with
              | none => none
              | some acc =>
                  if acc > (2 ^ 63 - 1) + 1 then none else digitLoop base acc true true rest

/-- The part of the parser after the sign. -/
def readBody (base : Option Int64) (rest : Text) : Option (Int × Bool) :=
  let (implied, digits) := prefixBase rest
  match effectiveBase base implied with
  | none => none
  | some effective =>
      if ¬(2 ≤ effective ∧ effective ≤ 36) then none
      else if digits = [] then none
      else digitLoop effective.toInt 0 false false digits

/-- `parse_ruby_integer_str`. -/
def parseRubyIntegerStr (input : Text) (base : Option Int64) : Option Int64 :=
  if ¬input.isAscii then none
  else
    let (neg, rest) := stripSign (trimMatches isAsciiWhitespace input)
    match readBody base rest with
    | none => none
    | some (_, false) => none
    | some (acc, true) =>
        let signed := if neg then -acc else acc
        if signed < -2 ^ 63 ∨ signed > 2 ^ 63 - 1 then none else some (Int64.ofInt signed)

/-! ## The grammar -/

/-- Digits up to 36, with underscores between them. -/
def alphabet : Alphabet Char where
  digit? := toDigit36
  separator := '_'
  separator_none := by decide

/-- The letter of a radix marker and its base. -/
def markerBase (letter : Char) : Option Nat :=
  match letter.toLower with
  | 'x' => some 16
  | 'b' => some 2
  | 'o' => some 8
  | 'd' => some 10
  | _ => none

/-- An explicit base agrees with that of a prefix. -/
def Agrees (base : Option Int64) (implied : Nat) : Prop :=
  ∀ b ∈ base, b.toInt = implied

/--
The unsigned part.  A marker is always read as one, and a `0` before anything else makes the
number octal; either has to agree with an explicit base.
-/
inductive Body (base : Option Int64) : Text → Nat → Prop where
  | marked {letter : Char} {implied : Nat} {run : Text} {ds : List Nat}
      (marker : markerBase letter = some implied) (agrees : Agrees base implied)
      (digits : DigitRun alphabet implied run ds) :
      Body base ('0' :: letter :: run) (value implied 0 ds)
  | octal {next : Char} {rest : Text} {ds : List Nat} (plain : markerBase next = none)
      (agrees : Agrees base 8) (digits : DigitRun alphabet 8 ('0' :: next :: rest) ds) :
      Body base ('0' :: next :: rest) (value 8 0 ds)
  | plain {effective : Nat} {run : Text} {ds : List Nat}
      (noPrefix : ∀ next rest, run ≠ '0' :: next :: rest)
      (chosen : (base.map Int64.toInt).getD 10 = effective) (range : 2 ≤ effective ∧ effective ≤ 36)
      (digits : DigitRun alphabet effective run ds) : Body base run (value effective 0 ds)

/-- A sign, which may be left out, and the body. -/
inductive Numeral (base : Option Int64) : Text → Int → Prop where
  | unsigned {body : Text} {n : Nat} (reads : Body base body n) : Numeral base body n
  | plus {body : Text} {n : Nat} (reads : Body base body n) : Numeral base ('+' :: body) n
  | minus {body : Text} {n : Nat} (reads : Body base body n) : Numeral base ('-' :: body) (-n)

/-! ## The digit loop -/

section Loop

variable {base : Nat} {text : Text} {result : Int × Bool}

/-- The loop on a character that is no underscore. -/
theorem digitLoop_cons (small : base ≤ 36) {acc : Nat} (below : acc ≤ 2 ^ 63) {c : Char}
    (plain : c ≠ '_') (prevWasDigit sawDigit : Bool) (rest : Text) :
    digitLoop base acc prevWasDigit sawDigit (c :: rest) = some result ↔
      ∃ d, alphabet.IsDigit base c d ∧ acc * base + d ≤ 2 ^ 63 ∧
        digitLoop base (acc * base + d : Nat) true true rest = some result := by
  rw [digitLoop, if_neg plain]
  simp only [Alphabet.IsDigit, alphabet]
  cases digit : toDigit36 c with
  | none => simp
  | some d =>
      simp only [Option.some.injEq, exists_eq_left', and_assoc]
      by_cases inBase : d < base
      · have bound : acc * base ≤ 2 ^ 63 * 36 := Nat.mul_le_mul below small
        have product : narrow128 ((acc : Int) * base) = some ((acc * base : Nat) : Int) := by
          rw [narrow128, ← Int.natCast_mul]
          exact if_pos (by omega)
        have sum : narrow128 (((acc * base : Nat) : Int) + d) =
            some ((acc * base + d : Nat) : Int) := by
          rw [narrow128, ← Int.natCast_add]
          exact if_pos (by omega)
        rw [if_neg (by omega), product, Option.bind_some, sum]
        simp only
        by_cases bound : acc * base + d ≤ 2 ^ 63
        · rw [if_neg (by omega)]
          exact ⟨fun loop => ⟨inBase, bound, loop⟩, fun facts => facts.2.2⟩
        · rw [if_pos (by omega)]
          exact iff_of_false nofun (fun facts => bound facts.2.1)
      · rw [if_pos (by omega)]
        exact iff_of_false nofun (fun facts => inBase facts.1)

/-- The loop accepts runs of digits whose value stays within the cutoff. -/
theorem digitLoop_iff (two : 2 ≤ base) (small : base ≤ 36) {acc : Nat} (below : acc ≤ 2 ^ 63) :
    (∀ sawDigit, text ≠ [] → (digitLoop base acc false sawDigit text = some result ↔
      ∃ ds, DigitRun alphabet base text ds ∧ value base acc ds ≤ 2 ^ 63 ∧
        result = (↑(value base acc ds), true))) ∧
    (digitLoop base acc true true text = some result ↔
      ∃ ds, Continues alphabet base text ds ∧ value base acc ds ≤ 2 ^ 63 ∧
        result = (↑(value base acc ds), true)) := by
  induction text generalizing acc with
  | nil =>
      refine ⟨fun _ nonempty => absurd rfl nonempty, ?_⟩
      constructor
      · rintro ⟨⟩
        exact ⟨[], .inl ⟨rfl, rfl⟩, below, rfl⟩
      · rintro ⟨ds, ⟨_, rfl⟩ | digits | ⟨run, same, _⟩, _, rfl⟩
        · rfl
        · exact absurd rfl digits.ne_nil
        · nomatch same
  | cons c rest ih =>
      by_cases underscore : c = '_'
      · subst underscore
        constructor
        · intro sawDigit _
          rw [digitLoop, if_pos rfl, if_pos (.inl (by simp))]
          exact iff_of_false nofun (fun ⟨_, digits, _⟩ => not_digitRun_separator digits)
        · have separated : ∀ ds, Continues alphabet base ('_' :: rest) ds ↔
              DigitRun alphabet base rest ds := fun _ => continues_separator_iff
          rw [digitLoop, if_pos rfl]
          simp only [separated]
          by_cases empty : rest = []
          · rw [if_pos (.inr empty)]
            exact iff_of_false nofun (fun ⟨_, digits, _⟩ => digits.ne_nil empty)
          · rw [if_neg (by simp [empty])]
            exact (ih below).1 true empty
      · have fromDigit : ∀ prevWasDigit sawDigit,
            digitLoop base acc prevWasDigit sawDigit (c :: rest) = some result ↔
              ∃ ds, DigitRun alphabet base (c :: rest) ds ∧ value base acc ds ≤ 2 ^ 63 ∧
                result = (↑(value base acc ds), true) := by
          intro prevWasDigit sawDigit
          rw [digitLoop_cons small below underscore]
          constructor
          · rintro ⟨d, digit, within, loop⟩
            rcases (ih within).2.mp loop with ⟨ds, after, bound, rfl⟩
            exact ⟨d :: ds, digitRun_cons_iff.mpr ⟨d, ds, rfl, digit, after⟩, bound, rfl⟩
          · rintro ⟨es, digits, bound, rfl⟩
            rcases digitRun_cons_iff.mp digits with ⟨d, ds, rfl, digit, after⟩
            rw [value_cons] at bound
            have within := Nat.le_trans (le_value (Nat.lt_of_lt_of_le Nat.two_pos two) _ ds) bound
            exact ⟨d, digit, within, (ih within).2.mpr ⟨ds, after, bound, rfl⟩⟩
        have plain : ∀ ds, Continues alphabet base (c :: rest) ds ↔
            DigitRun alphabet base (c :: rest) ds := fun _ => continues_cons_iff underscore
        simp only [plain]
        exact ⟨fun sawDigit _ => fromDigit false sawDigit, fromDigit true true⟩

end Loop

/-! ## Prefixes -/

theorem prefixBase_marked {letter : Char} {implied : Nat} (marker : markerBase letter = some implied)
    (run : Text) : ∃ b : Int64, prefixBase ('0' :: letter :: run) = (some b, run) ∧
      b.toInt = implied ∧ 2 ≤ implied ∧ implied ≤ 36 := by
  unfold markerBase at marker
  split at marker
  case h_5 => nomatch marker
  all_goals
    rename_i lower
    cases marker
    simp only [prefixBase, stripCiPrefix, lower]
    exact ⟨_, rfl, by decide, by decide, by decide⟩

theorem prefixBase_octal {next : Char} (plain : markerBase next = none) (rest : Text) :
    prefixBase ('0' :: next :: rest) = (some 8, '0' :: next :: rest) := by
  unfold markerBase at plain
  split at plain
  case h_5 notX notB notO notD =>
    have others : ∀ letter, next.toLower ≠ letter →
        stripCiPrefix letter ('0' :: next :: rest) = none := by
      intro letter other
      exact if_neg (fun both => other both.2)
    simp only [prefixBase, others _ notX, others _ notB, others _ notO, others _ notD]
    exact if_pos ⟨by simp, rfl⟩
  all_goals nomatch plain

theorem prefixBase_plain {rest : Text} (noPrefix : ∀ next more, rest ≠ '0' :: next :: more) :
    prefixBase rest = (none, rest) := by
  have noMarker : ∀ letter, stripCiPrefix letter rest = none := by
    intro letter
    unfold stripCiPrefix
    split
    · rename_i a b more
      apply if_neg
      rintro ⟨rfl, _⟩
      exact noPrefix b more rfl
    · rfl
  simp only [prefixBase, noMarker]
  apply if_neg
  rintro ⟨long, zero⟩
  rcases List.head?_eq_some_iff.mp zero with ⟨more, rfl⟩
  cases more with
  | nil => exact absurd long (by simp)
  | cons next more => exact noPrefix next more rfl

theorem effectiveBase_some_iff {base : Option Int64} {b effective : Int64} {implied : Nat}
    (exact_ : b.toInt = implied) :
    effectiveBase base (some b) = some effective ↔ effective = b ∧ Agrees base implied := by
  cases base with
  | none =>
      rw [effectiveBase, Option.some.injEq]
      exact ⟨fun same => ⟨same.symm, nofun⟩, fun both => both.1.symm⟩
  | some b' =>
      have agrees : Agrees (some b') implied ↔ b' = b := by
        rw [Agrees]
        simp only [Option.mem_some_iff, forall_eq', ← exact_, Int64.toInt_inj]
      rw [effectiveBase, agrees]
      by_cases same : b' = b
      · rw [if_pos same, Option.some.injEq]
        exact ⟨fun equal => ⟨equal.symm.trans same, same⟩, fun both => same.trans both.1.symm⟩
      · rw [if_neg same]
        exact iff_of_false nofun (fun both => same both.2)

theorem effectiveBase_none (base : Option Int64) :
    effectiveBase base none = some (base.getD 10) := by
  cases base <;> rfl

/-! ## The parser -/

section Reading

variable {base : Option Int64}

theorem readBody_of_split {rest digits : Text} {implied : Option Int64} {effective : Int64}
    (split : prefixBase rest = (implied, digits))
    (agrees : effectiveBase base implied = some effective) {b : Nat} (exact_ : effective.toInt = b)
    (two : 2 ≤ b) (small : b ≤ 36) {result : Int × Bool} :
    readBody base rest = some result ↔ ∃ ds, DigitRun alphabet b digits ds ∧
      value b 0 ds ≤ 2 ^ 63 ∧ result = (↑(value b 0 ds), true) := by
  have range : 2 ≤ effective ∧ effective ≤ 36 := by
    rw [Int64.le_iff_toInt_le, Int64.le_iff_toInt_le, exact_]
    exact ⟨Int.ofNat_le.mpr two, Int.ofNat_le.mpr small⟩
  simp only [readBody, split, agrees]
  rw [if_neg (not_not.mpr range)]
  by_cases empty : digits = []
  · rw [if_pos empty]
    exact iff_of_false nofun (fun ⟨_, digits, _⟩ => digits.ne_nil empty)
  · rw [if_neg empty, exact_]
    exact (digitLoop_iff two small (Nat.zero_le _)).1 false empty

/-- After a prefix the argument has to agree. -/
theorem readBody_of_implied {rest digits : Text} {b : Int64} {implied : Nat}
    (split : prefixBase rest = (some b, digits)) (exact_ : b.toInt = implied) (two : 2 ≤ implied)
    (small : implied ≤ 36) {result : Int × Bool} : readBody base rest = some result ↔
      Agrees base implied ∧ ∃ ds, DigitRun alphabet implied digits ds ∧
        value implied 0 ds ≤ 2 ^ 63 ∧ result = (↑(value implied 0 ds), true) := by
  by_cases agrees : Agrees base implied
  · have chosen := (effectiveBase_some_iff exact_).mpr ⟨rfl, agrees⟩
    rw [readBody_of_split split chosen exact_ two small]
    exact ⟨fun reads => ⟨agrees, reads⟩, fun both => both.2⟩
  · have differs : effectiveBase base (some b) = none := by
      rw [Option.eq_none_iff_forall_ne_some]
      intro effective chosen
      exact agrees ((effectiveBase_some_iff exact_).mp chosen).2
    simp only [readBody, split, differs]
    exact iff_of_false nofun (fun both => agrees both.1)

theorem body_marked_iff {letter : Char} {implied : Nat} (marker : markerBase letter = some implied)
    {run : Text} {n : Nat} : Body base ('0' :: letter :: run) n ↔
      Agrees base implied ∧ ∃ ds, DigitRun alphabet implied run ds ∧ n = value implied 0 ds := by
  constructor
  · intro body
    cases body with
    | marked marker' agrees digits =>
        cases marker.symm.trans marker'
        exact ⟨agrees, _, digits, rfl⟩
    | octal plain => nomatch marker.symm.trans plain
    | plain noPrefix => exact absurd rfl (noPrefix _ _)
  · rintro ⟨agrees, ds, digits, rfl⟩
    exact .marked marker agrees digits

theorem body_octal_iff {next : Char} (plain : markerBase next = none) {rest : Text} {n : Nat} :
    Body base ('0' :: next :: rest) n ↔ Agrees base 8 ∧
      ∃ ds, DigitRun alphabet 8 ('0' :: next :: rest) ds ∧ n = value 8 0 ds := by
  constructor
  · intro body
    cases body with
    | marked marker => nomatch plain.symm.trans marker
    | octal _ agrees digits => exact ⟨agrees, _, digits, rfl⟩
    | plain noPrefix => exact absurd rfl (noPrefix _ _)
  · rintro ⟨agrees, ds, digits, rfl⟩
    exact .octal plain agrees digits

theorem body_plain_iff {rest : Text} (noPrefix : ∀ next more, rest ≠ '0' :: next :: more) {n : Nat} :
    Body base rest n ↔ ∃ effective : Nat, ((base.getD 10).toInt = effective ∧ 2 ≤ effective ∧
      effective ≤ 36) ∧ ∃ ds, DigitRun alphabet effective rest ds ∧ n = value effective 0 ds := by
  have chosenIff : (base.map Int64.toInt).getD 10 = (base.getD 10).toInt := by
    cases base <;> rfl
  constructor
  · intro body
    cases body with
    | marked => exact absurd rfl (noPrefix _ _)
    | octal => exact absurd rfl (noPrefix _ _)
    | plain _ chosen range digits => exact ⟨_, ⟨chosenIff ▸ chosen, range⟩, _, digits, rfl⟩
  · rintro ⟨effective, ⟨chosen, range⟩, ds, digits, rfl⟩
    exact .plain noPrefix (chosenIff.trans chosen) range digits

/-- The parser reads the bodies of the grammar up to the cutoff. -/
theorem readBody_iff {rest : Text} {result : Int × Bool} : readBody base rest = some result ↔
    ∃ n, Body base rest n ∧ n ≤ 2 ^ 63 ∧ result = ((n : Int), true) := by
  by_cases prefixed : ∃ next more, rest = '0' :: next :: more
  · rcases prefixed with ⟨next, more, rfl⟩
    cases marker : markerBase next with
    | some implied =>
        rcases prefixBase_marked marker more with ⟨b, split, exact_, two, small⟩
        rw [readBody_of_implied split exact_ two small]
        simp only [body_marked_iff marker]
        constructor
        · rintro ⟨agrees, ds, digits, bound, rfl⟩
          exact ⟨_, ⟨agrees, ds, digits, rfl⟩, bound, rfl⟩
        · rintro ⟨_, ⟨agrees, ds, digits, rfl⟩, bound, rfl⟩
          exact ⟨agrees, ds, digits, bound, rfl⟩
    | none =>
        have eight : (8 : Int64).toInt = (8 : Nat) := by decide
        rw [readBody_of_implied (prefixBase_octal marker more) eight (by decide) (by decide)]
        simp only [body_octal_iff marker]
        constructor
        · rintro ⟨agrees, ds, digits, bound, rfl⟩
          exact ⟨_, ⟨agrees, ds, digits, rfl⟩, bound, rfl⟩
        · rintro ⟨_, ⟨agrees, ds, digits, rfl⟩, bound, rfl⟩
          exact ⟨agrees, ds, digits, bound, rfl⟩
  · have noPrefix : ∀ next more, rest ≠ '0' :: next :: more :=
      fun next more same => prefixed ⟨next, more, same⟩
    have split := prefixBase_plain noPrefix
    simp only [body_plain_iff noPrefix]
    constructor
    · intro reads
      by_cases range : 2 ≤ base.getD 10 ∧ base.getD 10 ≤ 36
      · rw [Int64.le_iff_toInt_le, Int64.le_iff_toInt_le] at range
        have low : 2 ≤ (base.getD 10).toInt := range.1
        have high : (base.getD 10).toInt ≤ 36 := range.2
        have exact_ : (base.getD 10).toInt = (base.getD 10).toInt.toNat := by omega
        rw [readBody_of_split split (effectiveBase_none base) exact_ (by omega) (by omega)] at reads
        rcases reads with ⟨ds, digits, bound, rfl⟩
        exact ⟨_, ⟨_, ⟨exact_, by omega, by omega⟩, ds, digits, rfl⟩, bound, rfl⟩
      · simp only [readBody, split, effectiveBase_none, if_pos range] at reads
        nomatch reads
    · rintro ⟨_, ⟨effective, ⟨exact_, two, small⟩, ds, digits, rfl⟩, bound, rfl⟩
      rw [readBody_of_split split (effectiveBase_none base) exact_ two small]
      exact ⟨ds, digits, bound, rfl⟩

end Reading

section Ascii

theorem ascii_of_toDigit36 {c : Char} {d : Nat} (digit : toDigit36 c = some d) : c.val < 128 := by
  unfold toDigit36 at digit
  split at digit
  · exact Rust.ascii_of_isDigit ‹_›
  · split at digit
    · exact Rust.ascii_of_isLower ‹_›
    · split at digit
      · exact Rust.ascii_of_isUpper ‹_›
      · contradiction

theorem ascii_of_digitRun {base : Nat} {run : Text} {ds : List Nat}
    (digits : DigitRun alphabet base run ds) : ∀ c ∈ run, c.val < 128 := by
  intro c mem
  rcases digits.mem mem with rfl | ⟨d, digit, _⟩
  · decide
  · exact ascii_of_toDigit36 digit

theorem ascii_of_markerBase {letter : Char} {implied : Nat}
    (marker : markerBase letter = some implied) : letter.val < 128 := by
  have lower : letter.toLower ∈ ['x', 'b', 'o', 'd'] := by
    unfold markerBase at marker
    split at marker
    case h_5 => nomatch marker
    all_goals
      rename_i same
      rw [same]
      decide
  by_cases upper : letter.val ≥ 'A'.val ∧ letter.val ≤ 'Z'.val
  · exact UInt32.lt_of_le_of_lt upper.2 (by decide)
  · have same : letter.toLower = letter := dif_neg upper
    rw [same] at lower
    have plain : ∀ c ∈ ['x', 'b', 'o', 'd'], c.val < 128 := by simp
    exact plain letter lower

theorem ascii_of_body {base : Option Int64} {text : Text} {n : Nat} (body : Body base text n) :
    ∀ c ∈ text, c.val < 128 := by
  intro c mem
  cases body with
  | marked marker _ digits =>
      rcases List.mem_cons.mp mem with rfl | later
      · decide
      · rcases List.mem_cons.mp later with rfl | inRun
        · exact ascii_of_markerBase marker
        · exact ascii_of_digitRun digits c inRun
  | octal _ _ digits => exact ascii_of_digitRun digits c mem
  | plain _ _ _ digits => exact ascii_of_digitRun digits c mem

/-- A trimmed character was of the class. -/
theorem mem_trimMatches {p : Char → Bool} {text : Text} {c : Char} (mem : c ∈ text) :
    p c = true ∨ c ∈ trimMatches p text := by
  have dropped : ∀ {text : Text}, c ∈ text → p c = true ∨ c ∈ text.dropWhile p := by
    intro text mem
    rw [← List.takeWhile_append_dropWhile (p := p) (l := text)] at mem
    rcases List.mem_append.mp mem with front | back
    · exact .inl (List.mem_takeWhile_imp front)
    · exact .inr back
  rcases dropped mem with inClass | kept
  · exact .inl inClass
  · rcases dropped (List.mem_reverse.mpr kept) with inClass | kept
    · exact .inl inClass
    · exact .inr (List.mem_reverse.mpr kept)

end Ascii

/-! ## Signs -/

theorem body_head {base : Option Int64} {text : Text} {n : Nat} (body : Body base text n) :
    ∃ c rest, text = c :: rest ∧ c ≠ '+' ∧ c ≠ '-' := by
  have ofDigits : ∀ {base : Nat} {run : Text} {ds : List Nat}, DigitRun alphabet base run ds →
      ∃ c rest, run = c :: rest ∧ c ≠ '+' ∧ c ≠ '-' := by
    intro base run ds digits
    rcases digits.head with ⟨c, rest, d, rfl, digit, _⟩
    refine ⟨c, rest, rfl, ?_, ?_⟩
    all_goals
      rintro rfl
      nomatch digit
  cases body with
  | marked => exact ⟨_, _, rfl, by decide, by decide⟩
  | octal _ _ digits => exact ofDigits digits
  | plain _ _ _ digits => exact ofDigits digits

/-- The numerals are the bodies after the sign that the parser strips. -/
theorem numeral_iff {base : Option Int64} {core : Text} {v : Int} : Numeral base core v ↔
    ∃ n : Nat, Body base (stripSign core).2 n ∧ v = if (stripSign core).1 then -(n : Int) else n := by
  have unsigned : ∀ {body : Text} {n : Nat}, Body base body n → stripSign body = (false, body) := by
    intro body n reads
    rcases body_head reads with ⟨c, rest, rfl, notPlus, notMinus⟩
    unfold stripSign
    split
    · rename_i same
      exact absurd (List.cons.inj same).1 notPlus
    · rename_i same
      exact absurd (List.cons.inj same).1 notMinus
    · rfl
  constructor
  · intro numeral
    cases numeral with
    | unsigned reads =>
        rw [unsigned reads]
        exact ⟨_, reads, rfl⟩
    | plus reads => exact ⟨_, reads, rfl⟩
    | minus reads => exact ⟨_, reads, rfl⟩
  · rintro ⟨n, reads, rfl⟩
    unfold stripSign at reads ⊢
    split at reads
    · exact .plus reads
    · exact .minus reads
    · exact .unsigned reads

/-- The characters of a string around a numeral are ASCII. -/
theorem isAscii_of_body {input : Text} {base : Option Int64} {n : Nat}
    (body : Body base (stripSign (trimMatches isAsciiWhitespace input)).2 n) :
    input.isAscii = true := by
  have inCore : ∀ {core : Text} {c : Char}, c ∈ core →
      c = '+' ∨ c = '-' ∨ c ∈ (stripSign core).2 := by
    intro core c mem
    unfold stripSign
    split
    · exact (List.mem_cons.mp mem).imp_right .inr
    · exact .inr (List.mem_cons.mp mem)
    · exact .inr (.inr mem)
  apply List.all_eq_true.mpr
  intro c mem
  apply decide_eq_true
  rcases mem_trimMatches (p := isAsciiWhitespace) mem with space | kept
  · simp only [isAsciiWhitespace, Bool.or_eq_true, decide_eq_true_eq] at space
    rcases space with (((rfl | rfl) | rfl) | rfl) | rfl <;> decide
  · rcases inCore kept with rfl | rfl | inBody
    · decide
    · decide
    · exact ascii_of_body body c inBody

/-- The parser accepts the numerals of the grammar, between whitespace, that fit an `i64`. -/
theorem parseRubyIntegerStr_eq_some_iff (input : Text) (base : Option Int64) (v : Int64) :
    parseRubyIntegerStr input base = some v ↔
      Numeral base (trimMatches isAsciiWhitespace input) v.toInt := by
  rw [numeral_iff, parseRubyIntegerStr]
  by_cases ascii : input.isAscii = true
  · rw [if_neg (not_not.mpr ascii)]
    generalize stripSign (trimMatches isAsciiWhitespace input) = stripped
    rcases stripped with ⟨neg, rest⟩
    constructor
    · intro parsed
      cases reads : readBody base rest with
      | none =>
          simp only [reads] at parsed
          nomatch parsed
      | some result =>
          rcases readBody_iff.mp reads with ⟨n, body, _, rfl⟩
          simp only [reads] at parsed
          generalize signed : (if neg = true then -(n : Int) else n) = value at parsed
          by_cases outside : value < -2 ^ 63 ∨ value > 2 ^ 63 - 1
          · rw [if_pos outside] at parsed
            nomatch parsed
          · rw [if_neg outside] at parsed
            cases parsed
            refine ⟨n, body, ?_⟩
            rw [not_or] at outside
            exact (Int64.toInt_ofInt_of_le (Int.not_lt.mp outside.1)
              (Int.lt_of_le_sub_one (Int.not_lt.mp outside.2))).trans signed.symm
    · rintro ⟨n, body, exact_⟩
      have bounds := toInt_bounds v
      have small : n ≤ 2 ^ 63 := by
        cases neg with
        | false =>
            have : v.toInt = n := exact_
            omega
        | true =>
            have : v.toInt = -n := exact_
            omega
      have reads := readBody_iff.mpr ⟨n, body, small, rfl⟩
      simp only [reads, ← exact_]
      rw [if_neg (by omega), Int64.ofInt_toInt]
  · rw [if_pos ascii]
    exact iff_of_false nofun (fun ⟨_, body, _⟩ => ascii (isAscii_of_body body))

/-! ## Spellings -/

theorem body_unique {base : Option Int64} {text : Text} {n n' : Nat} (body : Body base text n)
    (body' : Body base text n') : n = n' := by
  cases body with
  | marked marker _ digits =>
      rcases (body_marked_iff marker).mp body' with ⟨_, ds, digits', rfl⟩
      rw [digits.unique digits']
  | octal plain _ digits =>
      rcases (body_octal_iff plain).mp body' with ⟨_, ds, digits', rfl⟩
      rw [digits.unique digits']
  | plain noPrefix chosen range digits =>
      cases body' with
      | marked => exact absurd rfl (noPrefix _ _)
      | octal => exact absurd rfl (noPrefix _ _)
      | plain _ chosen' _ digits' =>
          cases Int.ofNat.inj (chosen.symm.trans chosen')
          rw [digits.unique digits']

theorem numeral_unique {base : Option Int64} {core : Text} {v v' : Int}
    (numeral : Numeral base core v) (numeral' : Numeral base core v') : v = v' := by
  rcases numeral_iff.mp numeral with ⟨n, body, rfl⟩
  rcases numeral_iff.mp numeral' with ⟨n', body', rfl⟩
  rw [body_unique body body']

/-- The radix prefixes of the bases 2, 8, 10 and 16; a decimal number may go without. -/
def radixPrefixes : List (Nat × Text) :=
  [(2, ['0', 'b']), (2, ['0', 'B']), (8, ['0']), (8, ['0', 'o']), (8, ['0', 'O']), (10, []),
    (10, ['0', 'd']), (10, ['0', 'D']), (16, ['0', 'x']), (16, ['0', 'X'])]

/-- The spelling of an integer in a base, with its sign and a prefix. -/
def spelledInteger (radix : Nat) (lead : Text) (plus : Bool) (m : Int) : Text :=
  (if m < 0 then ['-'] else if plus then ['+'] else []) ++ lead ++ Nat.toDigits radix m.natAbs

theorem toDigit36_digitChar : ∀ d < 16, toDigit36 d.digitChar = some d := by
  decide

theorem body_spelled {radix : Nat} {lead : Text} (listed : (radix, lead) ∈ radixPrefixes)
    {base : Option Int64} (agrees : Agrees base radix) (n : Nat) :
    Body base (lead ++ Nat.toDigits radix n) n := by
  have two : 1 < radix ∧ radix ≤ 16 := by
    have all : ∀ pair ∈ radixPrefixes, 1 < pair.1 ∧ pair.1 ≤ 16 := by decide
    exact all _ listed
  rcases digitRun_toDigits alphabet two.1
    (fun d below => toDigit36_digitChar d (Nat.lt_of_lt_of_le below two.2)) n with
    ⟨ds, digits, exact_⟩
  have marked : ∀ letter, markerBase letter = some radix →
      Body base ('0' :: letter :: Nat.toDigits radix n) n := by
    intro letter marker
    have body := Body.marked marker agrees digits
    rw [exact_] at body
    exact body
  simp only [radixPrefixes, List.mem_cons, List.not_mem_nil, or_false, Prod.mk.injEq] at listed
  rcases listed with ⟨rfl, rfl⟩ | ⟨rfl, rfl⟩ | ⟨rfl, rfl⟩ | ⟨rfl, rfl⟩ | ⟨rfl, rfl⟩ | ⟨rfl, rfl⟩ |
    ⟨rfl, rfl⟩ | ⟨rfl, rfl⟩ | ⟨rfl, rfl⟩ | ⟨rfl, rfl⟩
  case inr.inr.inl =>
    rcases digits.head with ⟨a, rest, d, starts, _⟩
    have plain : markerBase a = none := by
      have mem : a ∈ Nat.toDigits 8 n := starts ▸ List.mem_cons_self
      rcases exists_of_mem_toDigits (by decide) mem with ⟨d, below, rfl⟩
      have noMarker : ∀ d < 8, markerBase d.digitChar = none := by decide
      exact noMarker d below
    have zero : alphabet.IsDigit 8 '0' 0 := ⟨by decide, by decide⟩
    have octal := DigitRun.digit zero digits
    rw [starts] at octal ⊢
    have body := Body.octal plain agrees octal
    rw [value_cons, Nat.zero_mul, Nat.add_zero, exact_] at body
    exact body
  case inr.inr.inr.inr.inr.inl =>
    have noPrefix : ∀ next more, Nat.toDigits 10 n ≠ '0' :: next :: more := by
      intro next more same
      rcases Nat.eq_zero_or_pos n with rfl | positive
      · rw [Nat.toDigits_zero] at same
        nomatch same
      · apply head?_toDigits_ne (b := 10) (by decide) (by decide) positive
        rw [same, List.head?_cons]
    have chosen : (base.map Int64.toInt).getD 10 = (10 : Nat) := by
      cases base with
      | none => rfl
      | some b => exact agrees b rfl
    have body := Body.plain noPrefix chosen (by decide) digits
    rw [exact_] at body
    exact body
  all_goals exact marked _ (by decide)

theorem trimMatches_eq_self {p : Char → Bool} {text : Text} (outside : ∀ c ∈ text, p c = false) :
    trimMatches p text = text := by
  have kept : ∀ {text : Text}, (∀ c ∈ text, p c = false) → text.dropWhile p = text := by
    intro text outside
    cases text with
    | nil => rfl
    | cons c rest =>
        rw [List.dropWhile_cons_of_neg]
        rw [outside c List.mem_cons_self]
        decide
  rw [trimMatches, kept outside, List.rdropWhile,
    kept (fun c mem => outside c (List.mem_reverse.mp mem)), List.reverse_reverse]

/-- A spelling contains no whitespace. -/
theorem spelledInteger_visible {radix : Nat} {lead : Text}
    (listed : (radix, lead) ∈ radixPrefixes) (plus : Bool) (m : Int) :
    ∀ c ∈ spelledInteger radix lead plus m, isAsciiWhitespace c = false := by
  have pairs : ∀ pair ∈ radixPrefixes, (1 < pair.1 ∧ pair.1 ≤ 16) ∧
      ∀ c ∈ pair.2, isAsciiWhitespace c = false := by
    simp [radixPrefixes, isAsciiWhitespace]
  have digitsVisible : ∀ d < 16, isAsciiWhitespace d.digitChar = false := by decide
  intro c mem
  rw [spelledInteger] at mem
  rcases List.mem_append.mp mem with front | digit
  · rcases List.mem_append.mp front with sign | inLead
    · split at sign
      · rw [List.mem_singleton.mp sign]
        decide
      · split at sign
        · rw [List.mem_singleton.mp sign]
          decide
        · nomatch sign
    · exact (pairs _ listed).2 c inLead
  · rcases exists_of_mem_toDigits (pairs _ listed).1.1 digit with ⟨d, below, rfl⟩
    exact digitsVisible d (Nat.lt_of_lt_of_le below (pairs _ listed).1.2)

theorem numeral_spelledInteger {radix : Nat} {lead : Text}
    (listed : (radix, lead) ∈ radixPrefixes) {base : Option Int64} (agrees : Agrees base radix)
    (plus : Bool) (m : Int) : Numeral base (spelledInteger radix lead plus m) m := by
  have body := body_spelled listed agrees m.natAbs
  rw [spelledInteger, List.append_assoc]
  by_cases negative : m < 0
  · rw [if_pos negative]
    have numeral := Numeral.minus body
    rw [show -((m.natAbs : Nat) : Int) = m by omega] at numeral
    exact numeral
  · rw [if_neg negative]
    have same : ((m.natAbs : Nat) : Int) = m := by omega
    cases plus with
    | true =>
        have numeral := Numeral.plus body
        rw [same] at numeral
        exact numeral
    | false =>
        have numeral := Numeral.unsigned body
        rw [same] at numeral
        exact numeral

/-- A spelling is read back as its integer, if that fits an `i64`. -/
theorem parse_spelledInteger {radix : Nat} {lead : Text}
    (listed : (radix, lead) ∈ radixPrefixes) {base : Option Int64} (agrees : Agrees base radix)
    (plus : Bool) (m : Int) :
    parseRubyIntegerStr (spelledInteger radix lead plus m) base = narrow m := by
  have numeral := numeral_spelledInteger listed agrees plus m
  have trimmed := trimMatches_eq_self (spelledInteger_visible listed plus m)
  by_cases fits : -2 ^ 63 ≤ m ∧ m < 2 ^ 63
  · rcases narrow_eq_some fits.1 fits.2 with ⟨v, narrowed, rfl⟩
    rw [narrowed, parseRubyIntegerStr_eq_some_iff, trimmed]
    exact numeral
  · rw [narrow, if_neg fits, Option.eq_none_iff_forall_ne_some]
    intro v parsed
    rw [parseRubyIntegerStr_eq_some_iff, trimmed] at parsed
    exact fits (numeral_unique parsed numeral ▸ toInt_bounds v)

/--
The parser accepts exactly the numerals of the grammar that fit an `i64`.  In particular it reads
back every `i64` from its spelling in base 2, 8, 10 or 16, and nothing beyond.
-/
theorem integerStr_grammar :
    (∀ (input : Text) (base : Option Int64) (v : Int64), parseRubyIntegerStr input base = some v ↔
      Numeral base (trimMatches isAsciiWhitespace input) v.toInt) ∧
    ∀ radix lead, (radix, lead) ∈ radixPrefixes → ∀ base, Agrees base radix → ∀ plus,
      (∀ n : Int64, parseRubyIntegerStr (spelledInteger radix lead plus n.toInt) base = some n) ∧
      ∀ m, ¬(-2 ^ 63 ≤ m ∧ m < 2 ^ 63) →
        parseRubyIntegerStr (spelledInteger radix lead plus m) base = none := by
  refine ⟨parseRubyIntegerStr_eq_some_iff, fun radix lead listed base agrees plus => ⟨?_, ?_⟩⟩
  · intro n
    have fits := toInt_bounds n
    rw [parse_spelledInteger listed agrees, narrow, if_pos fits, Int64.ofInt_toInt]
  · intro m beyond
    rw [parse_spelledInteger listed agrees, narrow, if_neg beyond]

/-- The bodies if a radix prefix may also be read as digits. -/
inductive LooseBody (base : Option Int64) : Text → Nat → Prop where
  | marked {letter : Char} {implied : Nat} {run : Text} {ds : List Nat}
      (marker : markerBase letter = some implied) (agrees : Agrees base implied)
      (digits : DigitRun alphabet implied run ds) :
      LooseBody base ('0' :: letter :: run) (value implied 0 ds)
  | octal {next : Char} {rest : Text} {ds : List Nat} (agrees : Agrees base 8)
      (digits : DigitRun alphabet 8 ('0' :: next :: rest) ds) :
      LooseBody base ('0' :: next :: rest) (value 8 0 ds)
  | plain {effective : Nat} {run : Text} {ds : List Nat}
      (chosen : (base.map Int64.toInt).getD 10 = effective) (range : 2 ≤ effective ∧ effective ≤ 36)
      (digits : DigitRun alphabet effective run ds) : LooseBody base run (value effective 0 ds)

inductive LooseNumeral (base : Option Int64) : Text → Int → Prop where
  | unsigned {body : Text} {n : Nat} (reads : LooseBody base body n) : LooseNumeral base body n
  | plus {body : Text} {n : Nat} (reads : LooseBody base body n) : LooseNumeral base ('+' :: body) n
  | minus {body : Text} {n : Nat} (reads : LooseBody base body n) :
      LooseNumeral base ('-' :: body) (-n)

/-- `012` in base 10 has no prefix and three decimal digits, and it is declined. -/
theorem not_loose_grammar :
    ¬∀ (input : Text) (base : Option Int64) (v : Int64), parseRubyIntegerStr input base = some v ↔
      LooseNumeral base (trimMatches isAsciiWhitespace input) v.toInt := by
  intro grammar
  have digits : DigitRun alphabet 10 ['0', '1', '2'] [0, 1, 2] :=
    .digit ⟨by decide, by decide⟩ (.digit ⟨by decide, by decide⟩ (.last ⟨by decide, by decide⟩))
  have body : LooseBody (some 10) ['0', '1', '2'] (value 10 0 [0, 1, 2]) :=
    .plain (by decide) (by decide) digits
  have accepted := (grammar ['0', '1', '2'] (some 10) 12).mpr (.unsigned body)
  exact absurd accepted (by decide)

end Rigor.Infer.KernelFold
