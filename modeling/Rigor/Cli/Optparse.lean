import Rigor.Cli.Config.RubyInteger
import Rigor.Library.DigitGroups

/-!
# Integer arguments

`optparse.rs` converts the argument of an integer option: a matcher for the pattern of the accepted
texts, and a parser for what Ruby's `Integer` makes of them.
-/

namespace Rigor.Cli.Optparse

open Computability Rigor.Cli.Config Rigor.Infer.KernelFold Rigor.Library.DigitGroups
  Rigor.Library.Languages Rigor.Library.Numerals Rigor.Rust

inductive ValueError where
  | invalid
  | ambiguous
  deriving DecidableEq

/-! ## The matcher -/

/-- The loop of `group_ok`. -/
def groupLoop (ok : Char → Bool) : Bool → Text → Bool
  | prevUs, [] => !prevUs
  | prevUs, c :: t =>
      if c = '_' then
        if prevUs then false else groupLoop ok true t
      else if ok c then groupLoop ok false t
      else false

/-- `group_ok`. -/
def groupOk (t : Text) (ok : Char → Bool) : Bool :=
  match t with
  | [] => false
  | c :: _ => if ¬ok c then false else groupLoop ok false t

def isBinaryDigit (c : Char) : Bool :=
  c = '0' || c = '1'

def isOctalDigit (c : Char) : Bool :=
  '0'.toNat ≤ c.toNat && c.toNat ≤ '7'.toNat

/-- `char::is_ascii_hexdigit`. -/
def isHexdigit (c : Char) : Bool :=
  ('0'.toNat ≤ c.toNat && c.toNat ≤ '9'.toNat) || ('a'.toNat ≤ c.toNat && c.toNat ≤ 'f'.toNat) ||
    ('A'.toNat ≤ c.toNat && c.toNat ≤ 'F'.toNat)

/-- `int_pattern` after the sign. -/
def matchBody (body : Text) : Bool :=
  match body.map Char.toLower with
  | [] => false
  | first :: rest =>
      if first = '0' then
        match rest with
        | [] => true
        | c :: digits =>
            if c = 'b' then groupOk digits isBinaryDigit
            else if c = 'x' then groupOk digits isHexdigit
            else groupOk rest isOctalDigit
      else groupOk body Char.isDigit

/-- `int_pattern`. -/
def intPattern (s : Text) : Bool :=
  matchBody (stripSign s).2

/-! ## The parser -/

/-- `i64::from_str_radix`; a character that is no digit and an overflow both fail. -/
def i64FromStrRadix (radix : Nat) (text : Text) : Option Int64 :=
  let (neg, digits) := stripSign text
  if digits = [] then none
  else
    (digits.mapM (toDigit radix)).bind fun ds => narrow (signed neg (value radix 0 ds))

/-- The radix of a body without underscores, and its digits. -/
def splitRadix (body : Text) : Nat × Text :=
  match body with
  | '0' :: c :: rest =>
      if c = 'x' ∨ c = 'X' then (16, rest)
      else if c = 'b' ∨ c = 'B' then (2, rest)
      else if c = 'o' ∨ c = 'O' then (8, rest)
      else (8, c :: rest)
  | _ => (10, body)

/-- `parse_ruby_int` after the sign. -/
def parseBody (body : Text) : Option Int64 :=
  let (radix, digits) := splitRadix (body.filter fun c => c ≠ '_')
  i64FromStrRadix radix digits

/-- `parse_ruby_int`. -/
def parseRubyInt (s : Text) : Option Int64 :=
  let (neg, body) := stripSign s
  (parseBody body).map fun v => if neg then -v else v

/-- `convert` for `ValueKind::Int`. -/
def convertInt (v : Text) : Except ValueError Int64 :=
  if ¬intPattern v then .error .invalid
  else .ok ((parseRubyInt v).getD Int64.maxValue)

/-! ## The pattern -/

/-- The unsigned part of the pattern, ignoring case. -/
def bodyRegex : Language Char :=
  {['0']} * (1 + (groups isOctalDigit '_' + ({['b']} + {['B']}) * groups isBinaryDigit '_' +
    ({['x']} + {['X']}) * groups isHexdigit '_')) + groups Char.isDigit '_'

/--
`\A[-+]?(?:0(?:[0-7]+(?:_[0-7]+)*|b[01]+(?:_[01]+)*|x[\da-f]+(?:_[\da-f]+)*)?|\d+(?:_\d+)*)\z`i,
as it is documented on `int_pattern`.
-/
def intRegex : Language Char :=
  (1 + ({['-']} + {['+']})) * bodyRegex

/-- What Ruby's `Integer` reads. -/
def RubyInteger (s : Text) (v : Int) : Prop :=
  Numeral none (trimMatches isRubySpace s) v

/-- The nearest `i64`. -/
def clamp (v : Int) : Int :=
  max (-2 ^ 63) (min v (2 ^ 63 - 1))

/-! ## Digits of a base -/

theorem exists_isDigit_iff {base : Nat} {c : Char} : (∃ d, alphabet.IsDigit base c d) ↔
    (48 ≤ c.toNat ∧ c.toNat ≤ 57 ∧ c.toNat - 48 < base) ∨
      (97 ≤ c.toNat ∧ c.toNat ≤ 122 ∧ c.toNat - 97 + 10 < base) ∨
      (65 ≤ c.toNat ∧ c.toNat ≤ 90 ∧ c.toNat - 65 + 10 < base) := by
  have digit : ∀ d, alphabet.IsDigit base c d ↔ toDigit36 c = some d ∧ d < base := fun _ => Iff.rfl
  simp only [digit, toDigit36]
  by_cases decimal : c.isDigit = true
  · have range := isDigit_iff.mp decimal
    simp only [if_pos decimal, Option.some.injEq, exists_eq_left']
    change c.toNat - 48 < base ↔ _
    omega
  · have notDecimal := mt isDigit_iff.mpr decimal
    by_cases lower : c.isLower = true
    · have range := isLower_iff.mp lower
      simp only [if_neg decimal, if_pos lower, Option.some.injEq, exists_eq_left']
      change c.toNat - 97 + 10 < base ↔ _
      omega
    · have notLower := mt isLower_iff.mpr lower
      by_cases upper : c.isUpper = true
      · have range := isUpper_iff.mp upper
        simp only [if_neg decimal, if_neg lower, if_pos upper, Option.some.injEq, exists_eq_left']
        change c.toNat - 65 + 10 < base ↔ _
        omega
      · have notUpper := mt isUpper_iff.mpr upper
        simp only [if_neg decimal, if_neg lower, if_neg upper]
        refine iff_of_false ?_ ?_
        · rintro ⟨d, found, _⟩
          contradiction
        · omega

theorem spells_decimal : Spells Char.isDigit alphabet 10 := by
  intro c
  rw [exists_isDigit_iff, isDigit_iff]
  omega

theorem spells_octal : Spells isOctalDigit alphabet 8 := by
  intro c
  rw [exists_isDigit_iff, isOctalDigit, Bool.and_eq_true, decide_eq_true_eq, decide_eq_true_eq]
  change 48 ≤ c.toNat ∧ c.toNat ≤ 55 ↔ _
  omega

theorem spells_binary : Spells isBinaryDigit alphabet 2 := by
  intro c
  rw [exists_isDigit_iff, isBinaryDigit, Bool.or_eq_true, decide_eq_true_eq, decide_eq_true_eq,
    ← Char.toNat_inj, ← Char.toNat_inj]
  change c.toNat = 48 ∨ c.toNat = 49 ↔ _
  omega

theorem spells_hex : Spells isHexdigit alphabet 16 := by
  intro c
  simp only [exists_isDigit_iff, isHexdigit, Bool.or_eq_true, Bool.and_eq_true, decide_eq_true_eq]
  change ((48 ≤ c.toNat ∧ c.toNat ≤ 57) ∨ (97 ≤ c.toNat ∧ c.toNat ≤ 102)) ∨
    (65 ≤ c.toNat ∧ c.toNat ≤ 70) ↔ _
  omega

/-! ## The matcher matches runs of digits -/

section Match

variable {ok : Char → Bool} {base : Nat}

theorem not_ok_separator (spells : Spells ok alphabet base) : ok '_' = false := by
  rw [Bool.eq_false_iff]
  intro holds
  rcases (spells '_').mp holds with ⟨d, digit, _⟩
  have noDigit : alphabet.digit? '_' = none := alphabet.separator_none
  rw [noDigit] at digit
  contradiction

/-- After an underscore a run of digits follows, after a digit what may follow it. -/
theorem groupLoop_iff (spells : Spells ok alphabet base) {prevUs : Bool} {t : Text} :
    groupLoop ok prevUs t = true ↔
      ∃ ds, if prevUs then DigitRun alphabet base t ds else Continues alphabet base t ds := by
  induction t generalizing prevUs with
  | nil =>
      cases prevUs with
      | true => exact iff_of_false Bool.false_ne_true fun ⟨_, digits⟩ => digits.ne_nil rfl
      | false => exact iff_of_true rfl ⟨[], .inl ⟨rfl, rfl⟩⟩
  | cons c t ih =>
      rw [groupLoop]
      by_cases underscore : c = '_'
      · subst underscore
        rw [if_pos rfl]
        cases prevUs with
        | true =>
            refine iff_of_false Bool.false_ne_true ?_
            rintro ⟨ds, digits⟩
            exact not_digitRun_separator digits
        | false =>
            rw [if_neg Bool.false_ne_true, ih]
            exact exists_congr fun ds => continues_separator_iff.symm
      · have same : ∀ ds, (if prevUs then DigitRun alphabet base (c :: t) ds
            else Continues alphabet base (c :: t) ds) ↔ DigitRun alphabet base (c :: t) ds := by
          intro ds
          cases prevUs with
          | true => exact Iff.rfl
          | false => exact continues_cons_iff underscore
        rw [if_neg underscore]
        simp only [same]
        by_cases digit : ok c = true
        · rcases (spells c).mp digit with ⟨d, isDigit⟩
          rw [if_pos digit, ih]
          constructor
          · rintro ⟨ds, after⟩
            exact ⟨d :: ds, digitRun_cons_iff.mpr ⟨d, ds, rfl, isDigit, after⟩⟩
          · rintro ⟨es, digits⟩
            rcases digitRun_cons_iff.mp digits with ⟨_, ds, _, _, after⟩
            exact ⟨ds, after⟩
        · rw [if_neg digit]
          refine iff_of_false Bool.false_ne_true ?_
          rintro ⟨es, digits⟩
          rcases digitRun_cons_iff.mp digits with ⟨d, _, _, isDigit, _⟩
          exact digit ((spells c).mpr ⟨d, isDigit⟩)

theorem groupOk_iff (spells : Spells ok alphabet base) {t : Text} :
    groupOk t ok = true ↔ ∃ ds, DigitRun alphabet base t ds := by
  cases t with
  | nil => exact iff_of_false Bool.false_ne_true fun ⟨_, digits⟩ => digits.ne_nil rfl
  | cons c t =>
      rw [groupOk]
      by_cases digit : ok c = true
      · have plain : c ≠ '_' := by
          rintro rfl
          rw [not_ok_separator spells] at digit
          contradiction
        rw [if_neg (not_not_intro digit), groupLoop_iff spells]
        exact exists_congr fun ds => continues_cons_iff plain
      · rw [if_pos digit]
        refine iff_of_false Bool.false_ne_true ?_
        rintro ⟨es, digits⟩
        rcases digitRun_cons_iff.mp digits with ⟨d, _, _, isDigit, _⟩
        exact digit ((spells c).mpr ⟨d, isDigit⟩)

end Match

/-! ## Case -/

/-- A character that is no letter is the lower case of itself only. -/
theorem toLower_eq_iff_of_not_letter {c d : Char} (other : d.toNat < 65) :
    c.toLower = d ↔ c = d := by
  simp only [← Char.toNat_inj, toNat_toLower]
  split <;> omega

theorem toLower_eq_underscore_iff {c : Char} : c.toLower = '_' ↔ c = '_' := by
  simp only [← Char.toNat_inj, toNat_toLower]
  change (if 65 ≤ c.toNat ∧ c.toNat ≤ 90 then c.toNat + 32 else c.toNat) = 95 ↔ c.toNat = 95
  split <;> omega

theorem groupLoop_map_toLower (ok : Char → Bool) (prevUs : Bool) (t : Text) :
    groupLoop ok prevUs (t.map Char.toLower) = groupLoop (fun c => ok c.toLower) prevUs t := by
  induction t generalizing prevUs with
  | nil => rfl
  | cons c t ih =>
      simp only [List.map_cons, groupLoop, toLower_eq_underscore_iff, ih]

theorem groupOk_map_toLower (ok : Char → Bool) (t : Text) :
    groupOk (t.map Char.toLower) ok = groupOk t fun c => ok c.toLower := by
  cases t with
  | nil => rfl
  | cons c t =>
      have loop := groupLoop_map_toLower ok false (c :: t)
      rw [List.map_cons] at loop ⊢
      simp only [groupOk, loop]

theorem spells_toLower {ok : Char → Bool} {base : Nat} (spells : Spells ok alphabet base) :
    Spells (fun c => ok c.toLower) alphabet base := by
  intro c
  rw [spells, exists_isDigit_iff, exists_isDigit_iff, toNat_toLower]
  split <;> omega

/-! ## The body -/

theorem matchBody_zero : matchBody ['0'] = true :=
  rfl

theorem matchBody_marked (c : Char) (rest : Text) : matchBody ('0' :: c :: rest) =
    if c = 'b' ∨ c = 'B' then groupOk rest fun c => isBinaryDigit c.toLower
    else if c = 'x' ∨ c = 'X' then groupOk rest fun c => isHexdigit c.toLower
    else groupOk (c :: rest) fun c => isOctalDigit c.toLower := by
  have zero : '0'.toLower = '0' := rfl
  have b := @toLower_eq_iff c 'b' 'B' (by decide) (by decide)
  have x := @toLower_eq_iff c 'x' 'X' (by decide) (by decide)
  have octal := groupOk_map_toLower isOctalDigit (c :: rest)
  rw [List.map_cons] at octal
  simp only [matchBody, List.map_cons, zero, if_true, b, x, groupOk_map_toLower, octal]

theorem matchBody_plain {c : Char} (nonzero : c ≠ '0') (rest : Text) :
    matchBody (c :: rest) = groupOk (c :: rest) Char.isDigit := by
  have other : ¬c.toLower = '0' := mt (toLower_eq_iff_of_not_letter (by decide)).mp nonzero
  rw [matchBody, List.map_cons]
  exact if_neg other

theorem mem_bodyRegex_iff {b : Text} : b ∈ bodyRegex ↔ b = ['0'] ∨
    (∃ rest ds, b = '0' :: rest ∧ DigitRun alphabet 8 rest ds) ∨
    (∃ c rest ds, b = '0' :: c :: rest ∧ (c = 'b' ∨ c = 'B') ∧ DigitRun alphabet 2 rest ds) ∨
    (∃ c rest ds, b = '0' :: c :: rest ∧ (c = 'x' ∨ c = 'X') ∧ DigitRun alphabet 16 rest ds) ∨
    ∃ ds, DigitRun alphabet 10 b ds := by
  have octal (t : Text) : t ∈ groups isOctalDigit '_' ↔ ∃ ds, DigitRun alphabet 8 t ds :=
    mem_groups_iff spells_octal
  have binary (t : Text) : t ∈ groups isBinaryDigit '_' ↔ ∃ ds, DigitRun alphabet 2 t ds :=
    mem_groups_iff spells_binary
  have hex (t : Text) : t ∈ groups isHexdigit '_' ↔ ∃ ds, DigitRun alphabet 16 t ds :=
    mem_groups_iff spells_hex
  have decimal (t : Text) : t ∈ groups Char.isDigit '_' ↔ ∃ ds, DigitRun alphabet 10 t ds :=
    mem_groups_iff spells_decimal
  simp only [bodyRegex, Language.mem_add, mem_singleton_mul_iff, Language.mem_one, add_mul, octal,
    binary, hex, decimal]
  constructor
  · rintro (⟨_, rfl | (⟨ds, digits⟩ | ⟨rest, ⟨ds, digits⟩, rfl⟩ | ⟨rest, ⟨ds, digits⟩, rfl⟩) |
      ⟨rest, ⟨ds, digits⟩, rfl⟩ | ⟨rest, ⟨ds, digits⟩, rfl⟩, rfl⟩ | ⟨ds, digits⟩)
    · exact .inl rfl
    · exact .inr (.inl ⟨_, ds, rfl, digits⟩)
    · exact .inr (.inr (.inl ⟨_, _, ds, rfl, .inl rfl, digits⟩))
    · exact .inr (.inr (.inl ⟨_, _, ds, rfl, .inr rfl, digits⟩))
    · exact .inr (.inr (.inr (.inl ⟨_, _, ds, rfl, .inl rfl, digits⟩)))
    · exact .inr (.inr (.inr (.inl ⟨_, _, ds, rfl, .inr rfl, digits⟩)))
    · exact .inr (.inr (.inr (.inr ⟨ds, digits⟩)))
  · rintro (rfl | ⟨rest, ds, rfl, digits⟩ | ⟨c, rest, ds, rfl, rfl | rfl, digits⟩ |
      ⟨c, rest, ds, rfl, rfl | rfl, digits⟩ | ⟨ds, digits⟩)
    · exact .inl ⟨[], .inl rfl, rfl⟩
    · exact .inl ⟨rest, .inr (.inl (.inl ⟨ds, digits⟩)), rfl⟩
    · exact .inl ⟨_, .inr (.inl (.inr (.inl ⟨rest, ⟨ds, digits⟩, rfl⟩))), rfl⟩
    · exact .inl ⟨_, .inr (.inl (.inr (.inr ⟨rest, ⟨ds, digits⟩, rfl⟩))), rfl⟩
    · exact .inl ⟨_, .inr (.inr (.inl ⟨rest, ⟨ds, digits⟩, rfl⟩)), rfl⟩
    · exact .inl ⟨_, .inr (.inr (.inr ⟨rest, ⟨ds, digits⟩, rfl⟩)), rfl⟩
    · exact .inr ⟨ds, digits⟩

/-- A zero, an underscore, and octal digits: an octal number that only `\d+(?:_\d+)*` matches. -/
def OctalGap (body : Text) : Prop :=
  ∃ run ds, body = '0' :: '_' :: run ∧ DigitRun alphabet 8 run ds

/-- A digit or an underscore is no marker. -/
theorem markerBase_of_digit {base : Nat} (small : base ≤ 10) {c : Char}
    (digit : c = '_' ∨ ∃ d, alphabet.IsDigit base c d) :
    markerBase c = none ∧ ¬(c = 'b' ∨ c = 'B') ∧ ¬(c = 'x' ∨ c = 'X') := by
  have range : c.toNat = 95 ∨ (48 ≤ c.toNat ∧ c.toNat ≤ 57) := by
    rcases digit with rfl | isDigit
    · exact .inl rfl
    · rw [exists_isDigit_iff] at isDigit
      omega
  have other (d : Char) (outside : d.toNat ≠ 95 ∧ ¬(48 ≤ d.toNat ∧ d.toNat ≤ 57)) : c ≠ d := by
    rintro rfl
    omega
  have letters : ¬(c = 'x' ∨ c = 'X') ∧ ¬(c = 'b' ∨ c = 'B') ∧ ¬(c = 'o' ∨ c = 'O') ∧
      ¬(c = 'd' ∨ c = 'D') := by
    refine ⟨?_, ?_, ?_, ?_⟩ <;>
    · rintro (rfl | rfl) <;> simp at range
  rw [markerBase_eq, letterRadix, if_neg letters.1, if_neg letters.2.1, if_neg letters.2.2.1,
    if_neg letters.2.2.2]
  exact ⟨rfl, letters.2.1, letters.1⟩

/-- Ruby reads a text that the matcher rejects only if an underscore follows its leading zero. -/
theorem matchBody_of_mem {b : Text} {n : Nat} (reads : Body none b n) (inPattern : b ∈ bodyRegex)
    (noGap : ¬OctalGap b) : matchBody b = true := by
  rcases mem_bodyRegex_iff.mp inPattern with rfl | ⟨rest, ds, rfl, digits⟩ |
    ⟨c, rest, ds, rfl, marker, digits⟩ | ⟨c, rest, ds, rfl, marker, digits⟩ | ⟨ds, digits⟩
  · exact matchBody_zero
  · rcases digits.head with ⟨c, more, d, rfl, digit⟩
    have plain := markerBase_of_digit (by decide) (.inr ⟨d, digit⟩)
    rw [matchBody_marked, if_neg plain.2.1, if_neg plain.2.2]
    exact (groupOk_iff (spells_toLower spells_octal)).mpr ⟨ds, digits⟩
  · rw [matchBody_marked, if_pos marker]
    exact (groupOk_iff (spells_toLower spells_binary)).mpr ⟨ds, digits⟩
  · have other : ¬(c = 'b' ∨ c = 'B') := by
      rcases marker with rfl | rfl <;> decide
    rw [matchBody_marked, if_neg other, if_pos marker]
    exact (groupOk_iff (spells_toLower spells_hex)).mpr ⟨ds, digits⟩
  · rcases digits.head with ⟨c, rest, d, rfl, digit⟩
    by_cases zero : c = '0'
    · subst zero
      cases rest with
      | nil => exact matchBody_zero
      | cons c rest =>
          rcases digitRun_cons_iff.mp digits with ⟨_, ds', _, _, after⟩
          have next : c = '_' ∨ ∃ d, alphabet.IsDigit 10 c d := by
            by_cases underscore : c = '_'
            · exact .inl underscore
            · rcases digitRun_cons_iff.mp ((continues_cons_iff underscore).mp after) with
                ⟨d', _, _, digit', _⟩
              exact .inr ⟨d', digit'⟩
          have plain := markerBase_of_digit (by decide) next
          rcases (body_octal_iff plain.1).mp reads with ⟨_, es, octal, _⟩
          rcases digitRun_cons_iff.mp octal with ⟨_, es', _, _, after'⟩
          rw [matchBody_marked, if_neg plain.2.1, if_neg plain.2.2,
            groupOk_iff (spells_toLower spells_octal)]
          by_cases underscore : c = '_'
          · subst underscore
            exact absurd ⟨rest, es', rfl, continues_separator_iff.mp after'⟩ noGap
          · exact ⟨es', (continues_cons_iff underscore).mp after'⟩
    · rw [matchBody_plain zero]
      exact (groupOk_iff spells_decimal).mpr ⟨ds, digits⟩

/-- What the matcher accepts. -/
theorem matchBody_cases {b : Text} (accepted : matchBody b = true) : b = ['0'] ∨
    (∃ rest ds, b = '0' :: rest ∧ DigitRun alphabet 8 rest ds) ∨
    (∃ c rest ds, b = '0' :: c :: rest ∧ (c = 'b' ∨ c = 'B') ∧ DigitRun alphabet 2 rest ds) ∨
    (∃ c rest ds, b = '0' :: c :: rest ∧ (c = 'x' ∨ c = 'X') ∧ DigitRun alphabet 16 rest ds) ∨
    ∃ c rest ds, b = c :: rest ∧ c ≠ '0' ∧ DigitRun alphabet 10 (c :: rest) ds := by
  cases b with
  | nil => exact absurd accepted Bool.false_ne_true
  | cons first rest =>
      by_cases zero : first = '0'
      · subst zero
        cases rest with
        | nil => exact .inl rfl
        | cons c rest =>
            rw [matchBody_marked] at accepted
            split_ifs at accepted with binary hex
            · rcases (groupOk_iff (spells_toLower spells_binary)).mp accepted with ⟨ds, digits⟩
              exact .inr (.inr (.inl ⟨c, rest, ds, rfl, binary, digits⟩))
            · rcases (groupOk_iff (spells_toLower spells_hex)).mp accepted with ⟨ds, digits⟩
              exact .inr (.inr (.inr (.inl ⟨c, rest, ds, rfl, hex, digits⟩)))
            · rcases (groupOk_iff (spells_toLower spells_octal)).mp accepted with ⟨ds, digits⟩
              exact .inr (.inl ⟨c :: rest, ds, rfl, digits⟩)
      · rw [matchBody_plain zero] at accepted
        rcases (groupOk_iff spells_decimal).mp accepted with ⟨ds, digits⟩
        exact .inr (.inr (.inr (.inr ⟨first, rest, ds, rfl, zero, digits⟩)))

/-- The matcher stays inside the pattern, and outside the gap. -/
theorem mem_of_matchBody {b : Text} (accepted : matchBody b = true) :
    b ∈ bodyRegex ∧ ¬OctalGap b := by
  rw [mem_bodyRegex_iff]
  have noRun {base : Nat} {run : Text} {ds : List Nat} : ¬DigitRun alphabet base ('_' :: run) ds :=
    not_digitRun_separator
  rcases matchBody_cases accepted with rfl | ⟨rest, ds, rfl, digits⟩ |
    ⟨c, rest, ds, rfl, marker, digits⟩ | ⟨c, rest, ds, rfl, marker, digits⟩ |
    ⟨c, rest, ds, rfl, nonzero, digits⟩
  · refine ⟨.inl rfl, ?_⟩
    rintro ⟨run, es, same, _⟩
    cases same
  · refine ⟨.inr (.inl ⟨rest, ds, rfl, digits⟩), ?_⟩
    rintro ⟨run, es, same, _⟩
    cases same
    exact noRun digits
  · refine ⟨.inr (.inr (.inl ⟨c, rest, ds, rfl, marker, digits⟩)), ?_⟩
    rintro ⟨run, es, same, _⟩
    cases same
    rcases marker with same | same <;> cases same
  · refine ⟨.inr (.inr (.inr (.inl ⟨c, rest, ds, rfl, marker, digits⟩))), ?_⟩
    rintro ⟨run, es, same, _⟩
    cases same
    rcases marker with same | same <;> cases same
  · refine ⟨.inr (.inr (.inr (.inr ⟨ds, digits⟩))), ?_⟩
    rintro ⟨run, es, same, _⟩
    cases same
    exact nonzero rfl

/-! ## The parser reads what the matcher accepts -/

theorem stripSign_cons {c : Char} (notPlus : c ≠ '+') (notMinus : c ≠ '-') (rest : Text) :
    stripSign (c :: rest) = (false, c :: rest) := by
  unfold stripSign
  split
  · rename_i same
    exact absurd (List.cons.inj same).1 notPlus
  · rename_i same
    exact absurd (List.cons.inj same).1 notMinus
  · rfl

theorem ne_of_isDigit {base d : Nat} {c : Char} (digit : alphabet.IsDigit base c d) :
    c ≠ '_' ∧ c ≠ '+' ∧ c ≠ '-' := by
  have range := exists_isDigit_iff.mp ⟨d, digit⟩
  refine ⟨?_, ?_, ?_⟩ <;>
  · rintro rfl
    simp at range

theorem mapM_toDigit {base : Nat} {run : Text} {ds : List Nat}
    (digits : DigitRun alphabet base run ds) :
    (run.filter fun c => c ≠ '_').mapM (toDigit base) = some ds := by
  have keeps {c : Char} {d : Nat} (digit : alphabet.IsDigit base c d) (rest : Text) :
      ((c :: rest).filter fun c => c ≠ '_') = c :: rest.filter fun c => c ≠ '_' :=
    List.filter_cons_of_pos (decide_eq_true (ne_of_isDigit digit).1)
  induction digits with
  | last digit =>
      rw [keeps digit, List.filter_nil, List.mapM_cons, toDigit_eq_some_iff.mpr digit]
      rfl
  | digit digit _ ih =>
      rw [keeps digit, List.mapM_cons, toDigit_eq_some_iff.mpr digit, ih]
      rfl
  | separated digit _ ih =>
      have drops (rest : Text) : ((alphabet.separator :: rest).filter fun c => c ≠ '_') =
          rest.filter fun c => c ≠ '_' := List.filter_cons_of_neg (by decide)
      rw [keeps digit, drops, List.mapM_cons, toDigit_eq_some_iff.mpr digit, ih]
      rfl

/-- The filtered text of a run starts with its digit. -/
theorem filter_digitRun {base : Nat} {run : Text} {ds : List Nat}
    (digits : DigitRun alphabet base run ds) :
    ∃ c rest d, run = c :: rest ∧ alphabet.IsDigit base c d ∧
      (run.filter fun c => c ≠ '_') = c :: rest.filter fun c => c ≠ '_' := by
  rcases digits.head with ⟨c, rest, d, rfl, digit⟩
  exact ⟨c, rest, d, rfl, digit, List.filter_cons_of_pos (decide_eq_true (ne_of_isDigit digit).1)⟩

theorem i64FromStrRadix_of_digitRun {base : Nat} {run : Text} {ds : List Nat}
    (digits : DigitRun alphabet base run ds) :
    i64FromStrRadix base (run.filter fun c => c ≠ '_') = narrow (value base 0 ds) := by
  have reads := mapM_toDigit digits
  rcases filter_digitRun digits with ⟨c, rest, d, _, digit, front⟩
  rcases ne_of_isDigit digit with ⟨_, notPlus, notMinus⟩
  rw [front] at reads ⊢
  rw [i64FromStrRadix, stripSign_cons notPlus notMinus]
  dsimp only
  rw [if_neg (List.cons_ne_nil _ _), reads, Option.bind_some]
  rfl

theorem agrees_none (implied : Nat) : Agrees none implied := by
  intro base mem
  cases mem

/-- What the matcher accepts is a body that Ruby reads, and the parser reads it in the range of `i64`. -/
theorem reads_of_matchBody {b : Text} (accepted : matchBody b = true) :
    ∃ n, Body none b n ∧ parseBody b = narrow n := by
  have zeroFront (rest : Text) : (('0' :: rest).filter fun c => c ≠ '_') =
      '0' :: rest.filter fun c => c ≠ '_' := List.filter_cons_of_pos (by decide)
  rcases matchBody_cases accepted with rfl | ⟨rest, ds, rfl, digits⟩ |
    ⟨c, rest, ds, rfl, marker, digits⟩ | ⟨c, rest, ds, rfl, marker, digits⟩ |
    ⟨c, rest, ds, rfl, nonzero, digits⟩
  · have zero : DigitRun alphabet 10 ['0'] [0] := .last ⟨by decide, by decide⟩
    exact ⟨0, .plain (by simp) rfl (by decide) zero, rfl⟩
  · rcases filter_digitRun digits with ⟨c, more, d, rfl, digit, front⟩
    have plain := markerBase_of_digit (by decide) (.inr ⟨d, digit⟩)
    have whole : DigitRun alphabet 8 ('0' :: c :: more) (0 :: ds) :=
      .digit ⟨by decide, by decide⟩ digits
    refine ⟨_, .octal plain.1 (agrees_none 8) whole, ?_⟩
    have notO : ¬(c = 'o' ∨ c = 'O') := by
      have other := plain.1
      rw [markerBase_eq, letterRadix, if_neg plain.2.2, if_neg plain.2.1] at other
      split_ifs at other with o
      exact o
    have split : splitRadix ('0' :: c :: more.filter fun c => c ≠ '_') =
        (8, c :: more.filter fun c => c ≠ '_') := by
      simp only [splitRadix, if_neg plain.2.2, if_neg plain.2.1, if_neg notO]
    rw [parseBody, zeroFront, front, split]
    simp only [← front, i64FromStrRadix_of_digitRun digits, value_cons, Nat.zero_mul, Nat.zero_add]
  · have implied : markerBase c = some 2 := by
      rcases marker with rfl | rfl <;> rfl
    have other : ¬(c = 'x' ∨ c = 'X') ∧ c ≠ '_' := by
      rcases marker with rfl | rfl <;> decide
    refine ⟨_, .marked implied (agrees_none 2) digits, ?_⟩
    have keeps : ((c :: rest).filter fun c => c ≠ '_') = c :: rest.filter fun c => c ≠ '_' :=
      List.filter_cons_of_pos (decide_eq_true other.2)
    rw [parseBody, zeroFront, keeps]
    simp only [splitRadix, if_neg other.1, if_pos marker, i64FromStrRadix_of_digitRun digits]
  · have implied : markerBase c = some 16 := by
      rcases marker with rfl | rfl <;> rfl
    have other : c ≠ '_' := by
      rcases marker with rfl | rfl <;> decide
    refine ⟨_, .marked implied (agrees_none 16) digits, ?_⟩
    have keeps : ((c :: rest).filter fun c => c ≠ '_') = c :: rest.filter fun c => c ≠ '_' :=
      List.filter_cons_of_pos (decide_eq_true other)
    rw [parseBody, zeroFront, keeps]
    simp only [splitRadix, if_pos marker, i64FromStrRadix_of_digitRun digits]
  · have noPrefix : ∀ next more, c :: rest ≠ '0' :: next :: more := by
      intro next more same
      exact nonzero (List.cons.inj same).1
    refine ⟨_, .plain noPrefix rfl (by decide) digits, ?_⟩
    rcases filter_digitRun digits with ⟨_, _, d, same, digit, front⟩
    cases same
    have split : splitRadix (c :: rest.filter fun c => c ≠ '_') =
        (10, c :: rest.filter fun c => c ≠ '_') := by
      unfold splitRadix
      split
      · rename_i same
        exact absurd (List.cons.inj same).1 nonzero
      · rfl
    rw [parseBody, front, split]
    simp only [← front, i64FromStrRadix_of_digitRun digits]

/-! ## The texts with their sign -/

theorem head_of_bodyRegex {b : Text} (inPattern : b ∈ bodyRegex) :
    ∃ c rest, b = c :: rest ∧ c ≠ '+' ∧ c ≠ '-' := by
  rcases mem_bodyRegex_iff.mp inPattern with rfl | ⟨rest, ds, rfl, _⟩ | ⟨c, rest, ds, rfl, _⟩ |
    ⟨c, rest, ds, rfl, _⟩ | ⟨ds, digits⟩
  · exact ⟨'0', _, rfl, by decide, by decide⟩
  · exact ⟨'0', _, rfl, by decide, by decide⟩
  · exact ⟨'0', _, rfl, by decide, by decide⟩
  · exact ⟨'0', _, rfl, by decide, by decide⟩
  · rcases digits.head with ⟨c, rest, d, rfl, digit⟩
    exact ⟨c, rest, rfl, (ne_of_isDigit digit).2⟩

theorem mem_intRegex_iff {v : Text} : v ∈ intRegex ↔ (stripSign v).2 ∈ bodyRegex := by
  rw [intRegex, Language.mem_mul]
  constructor
  · rintro ⟨sign, isSign, body, inPattern, rfl⟩
    rcases isSign with rfl | rfl | rfl
    · rcases head_of_bodyRegex inPattern with ⟨c, rest, rfl, notPlus, notMinus⟩
      rw [List.nil_append, stripSign_cons notPlus notMinus]
      exact inPattern
    · exact inPattern
    · exact inPattern
  · intro inPattern
    unfold stripSign at inPattern
    split at inPattern
    · exact ⟨['+'], .inr (.inr rfl), _, inPattern, rfl⟩
    · exact ⟨['-'], .inr (.inl rfl), _, inPattern, rfl⟩
    · exact ⟨[], .inl rfl, _, inPattern, rfl⟩

theorem bodyRegex_visible {b : Text} (inPattern : b ∈ bodyRegex) :
    ∀ c ∈ b, isRubySpace c = false := by
  have zero : isRubySpace '0' = false := by decide
  rcases mem_bodyRegex_iff.mp inPattern with rfl | ⟨rest, ds, rfl, digits⟩ |
    ⟨c, rest, ds, rfl, marker, digits⟩ | ⟨c, rest, ds, rfl, marker, digits⟩ | ⟨ds, digits⟩
  · exact List.forall_mem_singleton.mpr zero
  · exact List.forall_mem_cons.mpr ⟨zero, digitRun_visible digits⟩
  · have letter : isRubySpace c = false := by
      rcases marker with rfl | rfl <;> decide
    exact List.forall_mem_cons.mpr ⟨zero, List.forall_mem_cons.mpr ⟨letter, digitRun_visible digits⟩⟩
  · have letter : isRubySpace c = false := by
      rcases marker with rfl | rfl <;> decide
    exact List.forall_mem_cons.mpr ⟨zero, List.forall_mem_cons.mpr ⟨letter, digitRun_visible digits⟩⟩
  · exact digitRun_visible digits

/-- In a text of the pattern there is nothing to trim. -/
theorem rubyInteger_iff_of_mem {v : Text} (inPattern : v ∈ intRegex) {i : Int} :
    RubyInteger v i ↔ ∃ n : Nat, Body none (stripSign v).2 n ∧ i = signed (stripSign v).1 n := by
  have visible : ∀ c ∈ v, isRubySpace c = false := by
    rw [mem_intRegex_iff] at inPattern
    have body := bodyRegex_visible inPattern
    unfold stripSign at body
    split at body
    · exact List.forall_mem_cons.mpr ⟨by decide, body⟩
    · exact List.forall_mem_cons.mpr ⟨by decide, body⟩
    · exact body
  rw [RubyInteger, trimMatches_eq_self visible, numeral_iff]
  rfl

/-- Ruby reads the texts of the gap. -/
theorem mem_of_octalGap {v : Text} (gap : OctalGap (stripSign v).2) :
    v ∈ intRegex ∧ ∃ i, RubyInteger v i := by
  rcases gap with ⟨run, ds, body, digits⟩
  have octal : DigitRun alphabet 8 ('0' :: '_' :: run) (0 :: ds) :=
    .separated ⟨by decide, by decide⟩ digits
  have wider : ∃ es, DigitRun alphabet 10 ('0' :: '_' :: run) es := ⟨_, octal.mono (by decide)⟩
  have inPattern : v ∈ intRegex := by
    rw [mem_intRegex_iff, body, mem_bodyRegex_iff]
    exact .inr (.inr (.inr (.inr wider)))
  have reads : Body none (stripSign v).2 (value 8 0 (0 :: ds)) := by
    rw [body]
    exact .octal (by decide) (agrees_none 8) octal
  exact ⟨inPattern, _, (rubyInteger_iff_of_mem inPattern).mpr ⟨_, reads, rfl⟩⟩

/-- The value that is delivered for a number of the given magnitude. -/
def delivered (neg : Bool) (n : Nat) : Int64 :=
  ((narrow n).map fun v => if neg then -v else v).getD Int64.maxValue

/-- It is the nearest `i64`, unless the number is negative and no more than the least one. -/
theorem delivered_iff (neg : Bool) (n : Nat) :
    (delivered neg n).toInt = clamp (signed neg n) ↔ ¬signed neg n ≤ -2 ^ 63 := by
  have greatest : Int64.maxValue.toInt = 2 ^ 63 - 1 := Int64.toInt_maxValue
  by_cases fits : (n : Int) < 2 ^ 63
  · have read : narrow n = some (Int64.ofInt n) := if_pos ⟨by omega, fits⟩
    have inside : ¬signed neg n ≤ -2 ^ 63 := by
      cases neg
      · change ¬(n : Int) ≤ -2 ^ 63
        omega
      · change ¬-(n : Int) ≤ -2 ^ 63
        omega
    refine iff_of_true ?_ inside
    rw [delivered, read, Option.map_some, Option.getD_some]
    cases neg
    · change (Int64.ofInt n).toInt = clamp n
      rw [Int64.toInt_ofInt_of_le (by omega) fits, clamp]
      omega
    · change (-Int64.ofInt n).toInt = clamp (-n)
      rw [Int64.neg_ofInt, Int64.toInt_ofInt_of_le (by omega) (by omega), clamp]
      omega
  · have overflow : narrow n = none := if_neg fun range => fits range.2
    rw [delivered, overflow, Option.map_none, Option.getD_none, greatest]
    cases neg
    · change 2 ^ 63 - 1 = clamp n ↔ ¬(n : Int) ≤ -2 ^ 63
      rw [clamp]
      omega
    · change 2 ^ 63 - 1 = clamp (-n) ↔ ¬-(n : Int) ≤ -2 ^ 63
      rw [clamp]
      omega

/-- A text of the pattern that Ruby reads is converted to the nearest `i64`, and no other text is. -/
def ConvertsAsRuby (v : Text) : Prop :=
  ∀ x, convertInt v = .ok x ↔ v ∈ intRegex ∧ ∃ i, RubyInteger v i ∧ x.toInt = clamp i

theorem exists_clamp (i : Int) : ∃ x : Int64, x.toInt = clamp i := by
  refine ⟨Int64.ofInt (clamp i), Int64.toInt_ofInt_of_le ?_ ?_⟩
  · rw [clamp]
    omega
  · rw [clamp]
    omega

/--
The conversion is Ruby's, cut off at the limits of `i64`, unless an underscore follows the leading zero
of an octal number, or a negative number is no more than the least `i64`.
-/
theorem convertInt_iff (v : Text) : ConvertsAsRuby v ↔
    ¬OctalGap (stripSign v).2 ∧ ¬∃ i, v ∈ intRegex ∧ RubyInteger v i ∧ i ≤ -2 ^ 63 := by
  by_cases accepted : matchBody (stripSign v).2 = true
  · rcases mem_of_matchBody accepted with ⟨inBody, noGap⟩
    have inPattern := mem_intRegex_iff.mpr inBody
    rcases reads_of_matchBody accepted with ⟨n, reads, parsed⟩
    have only : ∀ i, RubyInteger v i ↔ i = signed (stripSign v).1 n := by
      intro i
      rw [rubyInteger_iff_of_mem inPattern]
      constructor
      · rintro ⟨m, reads', rfl⟩
        rw [body_unique reads reads']
      · rintro rfl
        exact ⟨n, reads, rfl⟩
    have converted : convertInt v = .ok (delivered (stripSign v).1 n) := by
      rw [convertInt, intPattern, if_neg (not_not_intro accepted), parseRubyInt]
      dsimp only
      rw [parsed]
      rfl
    have meets : ConvertsAsRuby v ↔
        (delivered (stripSign v).1 n).toInt = clamp (signed (stripSign v).1 n) := by
      simp only [ConvertsAsRuby, converted, only, inPattern, true_and, exists_eq_left,
        Except.ok.injEq]
      constructor
      · exact fun same => (same _).mp rfl
      · intro same x
        rw [← same, Int64.toInt_inj, eq_comm]
    simp only [meets, delivered_iff, only, inPattern, true_and, exists_eq_left, noGap,
      not_false_eq_true]
  · have rejected : convertInt v = .error .invalid := if_pos accepted
    have meets : ConvertsAsRuby v ↔ ¬(v ∈ intRegex ∧ ∃ i, RubyInteger v i) := by
      simp only [ConvertsAsRuby, rejected, reduceCtorEq, false_iff]
      constructor
      · rintro none_read ⟨inPattern, i, reads⟩
        rcases exists_clamp i with ⟨x, nearest⟩
        exact none_read x ⟨inPattern, i, reads, nearest⟩
      · rintro unread x ⟨inPattern, i, reads, _⟩
        exact unread ⟨inPattern, i, reads⟩
    rw [meets]
    constructor
    · intro unread
      constructor
      · intro gap
        exact unread (mem_of_octalGap gap)
      · rintro ⟨i, inPattern, reads, _⟩
        exact unread ⟨inPattern, i, reads⟩
    · rintro ⟨noGap, _⟩ ⟨inPattern, i, reads⟩
      rcases (rubyInteger_iff_of_mem inPattern).mp reads with ⟨n, body, _⟩
      exact accepted (matchBody_of_mem body (mem_intRegex_iff.mp inPattern) noGap)

/-- `0_7` is rejected, and the least `i64` is converted to the greatest. -/
theorem not_convertsAsRuby : ¬ConvertsAsRuby ['0', '_', '7'] ∧
    ¬ConvertsAsRuby "-9223372036854775808".toList := by
  constructor
  · intro converts
    have seven : DigitRun alphabet 8 ['7'] [7] := .last ⟨by decide, by decide⟩
    have gap : OctalGap (stripSign ['0', '_', '7']).2 := ⟨['7'], [7], rfl, seven⟩
    rcases mem_of_octalGap gap with ⟨inPattern, i, reads⟩
    rcases exists_clamp i with ⟨x, nearest⟩
    have converted := (converts x).mpr ⟨inPattern, i, reads, nearest⟩
    have rejected : convertInt ['0', '_', '7'] = .error .invalid := rfl
    rw [rejected] at converted
    contradiction
  · intro converts
    have converted : convertInt "-9223372036854775808".toList = .ok Int64.maxValue := by
      decide +kernel
    rcases (converts _).mp converted with ⟨inPattern, i, reads, nearest⟩
    rcases (rubyInteger_iff_of_mem inPattern).mp reads with ⟨n, _, rfl⟩
    have negative : signed (stripSign "-9223372036854775808".toList).1 n = -(n : Int) := rfl
    rw [negative, Int64.toInt_maxValue, clamp] at nearest
    omega

end Rigor.Cli.Optparse
