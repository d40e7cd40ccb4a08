import Mathlib.Data.Nat.Digits.Defs

/-!
# Numerals

Runs of digits of a base, with single separators strictly between two digits.
-/

namespace Rigor.Library.Numerals

universe u

variable {α : Type u}

/-- An alphabet of digits and a separator that is no digit. -/
structure Alphabet (α : Type u) where
  digit? : α → Option Nat
  separator : α
  separator_none : digit? separator = none

/-- The item is a digit of the base. -/
def Alphabet.IsDigit (alphabet : Alphabet α) (base : Nat) (a : α) (d : Nat) : Prop :=
  alphabet.digit? a = some d ∧ d < base

/-- A nonempty run of digits, most significant first, with the digits that it spells. -/
inductive DigitRun (alphabet : Alphabet α) (base : Nat) : List α → List Nat → Prop where
  | last {a : α} {d : Nat} (digit : alphabet.IsDigit base a d) : DigitRun alphabet base [a] [d]
  | digit {a : α} {d : Nat} {run : List α} {ds : List Nat} (digit : alphabet.IsDigit base a d)
      (rest : DigitRun alphabet base run ds) : DigitRun alphabet base (a :: run) (d :: ds)
  | separated {a : α} {d : Nat} {run : List α} {ds : List Nat} (digit : alphabet.IsDigit base a d)
      (rest : DigitRun alphabet base run ds) :
      DigitRun alphabet base (a :: alphabet.separator :: run) (d :: ds)

/-- The value of some digits after those that have the value `acc`. -/
def value (base acc : Nat) (ds : List Nat) : Nat :=
  ds.foldl (fun acc d => acc * base + d) acc

@[simp]
theorem value_nil (base acc : Nat) : value base acc [] = acc :=
  rfl

@[simp]
theorem value_cons (base acc d : Nat) (ds : List Nat) :
    value base acc (d :: ds) = value base (acc * base + d) ds :=
  rfl

/-- More digits never make the value smaller. -/
theorem le_value {base : Nat} (positive : 0 < base) (acc : Nat) (ds : List Nat) :
    acc ≤ value base acc ds := by
  induction ds generalizing acc with
  | nil => exact Nat.le_refl acc
  | cons d ds ih =>
      have grows : acc ≤ acc * base + d :=
        Nat.le_trans (Nat.le_mul_of_pos_right acc positive) (Nat.le_add_right _ _)
      exact Nat.le_trans grows (ih _)

theorem value_append (base acc : Nat) (ds es : List Nat) :
    value base acc (ds ++ es) = value base (value base acc ds) es :=
  List.foldl_append

section Runs

variable {alphabet : Alphabet α} {base : Nat} {run : List α} {ds : List Nat}

theorem DigitRun.append {run' : List α} {ds' : List Nat} (front : DigitRun alphabet base run ds)
    (back : DigitRun alphabet base run' ds') : DigitRun alphabet base (run ++ run') (ds ++ ds') := by
  induction front with
  | last digit => exact .digit digit back
  | digit digit _ ih => exact .digit digit ih
  | separated digit _ ih => exact .separated digit ih

/-- The digits of a base are digits of a greater one. -/
theorem DigitRun.mono {base' : Nat} (less : base ≤ base') (digits : DigitRun alphabet base run ds) :
    DigitRun alphabet base' run ds := by
  have wider : ∀ {a : α} {d : Nat}, alphabet.IsDigit base a d → alphabet.IsDigit base' a d :=
    fun digit => ⟨digit.1, Nat.lt_of_lt_of_le digit.2 less⟩
  induction digits with
  | last digit => exact .last (wider digit)
  | digit digit _ ih => exact .digit (wider digit) ih
  | separated digit _ ih => exact .separated (wider digit) ih

/-- A run goes on behind a separator. -/
theorem DigitRun.append_separated {run run' : List α} {ds ds' : List Nat}
    (front : DigitRun alphabet base run ds) (back : DigitRun alphabet base run' ds') :
    DigitRun alphabet base (run ++ alphabet.separator :: run') (ds ++ ds') := by
  induction front with
  | last digit => exact .separated digit back
  | digit digit _ ih => exact .digit digit ih
  | separated digit _ ih => exact .separated digit ih

theorem DigitRun.ne_nil (digits : DigitRun alphabet base run ds) : run ≠ [] := by
  cases digits <;> exact List.cons_ne_nil _ _

/-- A run starts with a digit. -/
theorem DigitRun.head (digits : DigitRun alphabet base run ds) :
    ∃ a rest d, run = a :: rest ∧ alphabet.IsDigit base a d := by
  cases digits with
  | last digit => exact ⟨_, _, _, rfl, digit⟩
  | digit digit _ => exact ⟨_, _, _, rfl, digit⟩
  | separated digit _ => exact ⟨_, _, _, rfl, digit⟩

/-- The items of a run are digits and separators. -/
theorem DigitRun.mem {a : α} (digits : DigitRun alphabet base run ds) (mem : a ∈ run) :
    a = alphabet.separator ∨ ∃ d, alphabet.IsDigit base a d := by
  induction digits with
  | last digit =>
      rw [List.mem_singleton.mp mem]
      exact .inr ⟨_, digit⟩
  | digit digit _ ih =>
      rcases List.mem_cons.mp mem with rfl | later
      · exact .inr ⟨_, digit⟩
      · exact ih later
  | separated digit _ ih =>
      rcases List.mem_cons.mp mem with rfl | later
      · exact .inr ⟨_, digit⟩
      · rcases List.mem_cons.mp later with rfl | later
        · exact .inl rfl
        · exact ih later

/-- A run does not start with a separator. -/
theorem not_digitRun_separator : ¬DigitRun alphabet base (alphabet.separator :: run) ds := by
  intro digits
  rcases digits.head with ⟨a, rest, d, starts, digit, _⟩
  injection starts with starts _
  rw [← starts, alphabet.separator_none] at digit
  nomatch digit

/-- A run spells its digits only. -/
theorem DigitRun.unique {ds' : List Nat} (digits : DigitRun alphabet base run ds)
    (digits' : DigitRun alphabet base run ds') : ds = ds' := by
  have same : ∀ {a : α} {d d' : Nat}, alphabet.IsDigit base a d → alphabet.IsDigit base a d' →
      d = d' := fun digit digit' => Option.some.inj (digit.1.symm.trans digit'.1)
  induction digits generalizing ds' with
  | last digit =>
      cases digits' with
      | last digit' => rw [same digit digit']
      | digit _ rest' => exact absurd rfl rest'.ne_nil
  | digit digit rest ih =>
      cases digits' with
      | last => exact absurd rfl rest.ne_nil
      | digit digit' rest' => rw [same digit digit', ih rest']
      | separated => exact absurd rest not_digitRun_separator
  | separated digit rest ih =>
      cases digits' with
      | digit _ rest' => exact absurd rest' not_digitRun_separator
      | separated digit' rest' => rw [same digit digit', ih rest']

/-- What may follow a digit: nothing, a run, or a separator and a run. -/
def Continues (alphabet : Alphabet α) (base : Nat) (rest : List α) (ds : List Nat) : Prop :=
  (rest = [] ∧ ds = []) ∨ DigitRun alphabet base rest ds ∨
    ∃ run, rest = alphabet.separator :: run ∧ DigitRun alphabet base run ds

theorem digitRun_cons_iff {a : α} {rest : List α} {es : List Nat} :
    DigitRun alphabet base (a :: rest) es ↔
      ∃ d ds, es = d :: ds ∧ alphabet.IsDigit base a d ∧ Continues alphabet base rest ds := by
  constructor
  · intro digits
    cases digits with
    | last digit => exact ⟨_, _, rfl, digit, .inl ⟨rfl, rfl⟩⟩
    | digit digit rest => exact ⟨_, _, rfl, digit, .inr (.inl rest)⟩
    | separated digit rest => exact ⟨_, _, rfl, digit, .inr (.inr ⟨_, rfl, rest⟩)⟩
  · rintro ⟨d, ds, rfl, digit, ⟨rfl, rfl⟩ | rest | ⟨run, rfl, rest⟩⟩
    · exact .last digit
    · exact .digit digit rest
    · exact .separated digit rest

theorem continues_separator_iff : Continues alphabet base (alphabet.separator :: run) ds ↔
    DigitRun alphabet base run ds := by
  constructor
  · rintro (⟨empty, _⟩ | digits | ⟨run', same, digits⟩)
    · nomatch empty
    · exact absurd digits not_digitRun_separator
    · injection same with _ same
      exact same ▸ digits
  · exact fun digits => .inr (.inr ⟨run, rfl, digits⟩)

theorem continues_cons_iff {a : α} (plain : a ≠ alphabet.separator) :
    Continues alphabet base (a :: run) ds ↔ DigitRun alphabet base (a :: run) ds := by
  constructor
  · rintro (⟨empty, _⟩ | digits | ⟨run', same, _⟩)
    · nomatch empty
    · exact digits
    · injection same with separator _
      exact absurd separator plain
  · exact fun digits => .inr (.inl digits)

end Runs

/-! ## `Nat.toDigits` -/

theorem exists_of_mem_toDigits {b n : Nat} (base : 1 < b) {ch : Char}
    (mem : ch ∈ Nat.toDigits b n) : ∃ d < b, ch = d.digitChar := by
  induction n using Nat.strongRecOn with
  | _ n ih =>
      rw [Nat.toDigits_eq_if base] at mem
      by_cases last : n < b
      · rw [if_pos last] at mem
        exact ⟨n, last, List.mem_singleton.mp mem⟩
      · rw [if_neg last] at mem
        rcases List.mem_append.mp mem with front | back
        · have positive : 0 < n := Nat.lt_of_lt_of_le (Nat.lt_trans Nat.zero_lt_one base)
            (Nat.not_lt.mp last)
          exact ih (n / b) (Nat.div_lt_self positive base) front
        · exact ⟨n % b, Nat.mod_lt n (Nat.lt_trans Nat.zero_lt_one base),
            List.mem_singleton.mp back⟩

theorem digitChar_eq_zero_iff : ∀ d < 16, d.digitChar = '0' ↔ d = 0 := by
  decide

/-- The first digit of a positive number is not zero. -/
theorem head?_toDigits_ne {b n : Nat} (base : 1 < b) (small : b ≤ 16) (positive : 0 < n) :
    (Nat.toDigits b n).head? ≠ some '0' := by
  induction n using Nat.strongRecOn with
  | _ n ih =>
      rw [Nat.toDigits_eq_if base]
      by_cases last : n < b
      · rw [if_pos last, List.head?_cons, Ne, Option.some.injEq,
          digitChar_eq_zero_iff n (Nat.lt_of_lt_of_le last small)]
        exact Nat.ne_of_gt positive
      · rw [if_neg last, List.head?_append,
          Option.or_of_isSome (List.isSome_head?.mpr Nat.toDigits_ne_nil)]
        exact ih (n / b) (Nat.div_lt_self positive base)
          (Nat.div_pos (Nat.not_lt.mp last) (Nat.lt_trans Nat.zero_lt_one base))

/-- The spelling of a number by `Nat.toDigits` is a run of digits with that value. -/
theorem digitRun_toDigits (alphabet : Alphabet Char) {base : Nat} (two : 1 < base)
    (spells : ∀ d < base, alphabet.digit? d.digitChar = some d) (n : Nat) :
    ∃ ds, DigitRun alphabet base (Nat.toDigits base n) ds ∧ value base 0 ds = n := by
  induction n using Nat.strongRecOn with
  | _ n ih =>
      rw [Nat.toDigits_eq_if two]
      by_cases last : n < base
      · rw [if_pos last]
        refine ⟨[n], .last ⟨spells n last, last⟩, ?_⟩
        rw [value_cons, value_nil, Nat.zero_mul, Nat.zero_add]
      · rw [if_neg last]
        have positive : 0 < n :=
          Nat.lt_of_lt_of_le (Nat.lt_trans Nat.zero_lt_one two) (Nat.not_lt.mp last)
        have below : n % base < base := Nat.mod_lt n (Nat.lt_trans Nat.zero_lt_one two)
        rcases ih (n / base) (Nat.div_lt_self positive two) with ⟨ds, front, exact⟩
        refine ⟨ds ++ [n % base], front.append (.last ⟨spells _ below, below⟩), ?_⟩
        rw [value_append, exact, value_cons, value_nil, Nat.div_add_mod']

theorem toDigits_injective (alphabet : Alphabet Char) {base : Nat} (two : 1 < base)
    (spells : ∀ d < base, alphabet.digit? d.digitChar = some d) {m n : Nat}
    (same : Nat.toDigits base m = Nat.toDigits base n) : m = n := by
  rcases digitRun_toDigits alphabet two spells m with ⟨ds, run, value⟩
  rcases digitRun_toDigits alphabet two spells n with ⟨ds', run', value'⟩
  rw [same] at run
  rw [← value, ← value', run.unique run']

end Rigor.Library.Numerals
