import Rigor.Infer.KernelFold.Sprintf
import Rigor.Library.MaximalMunch

/-!
# The pieces of a template

A template is spelled by literal characters, `%%` and directives, and `readDirective` reads the
directives that are spelled.
-/

namespace Rigor.Infer.KernelFold

open Rigor.Library.MaximalMunch Rigor.Rust Rigor.Types

/-! ## The scanners -/

def isFlag (c : Char) : Bool :=
  c ∈ ['-', '0', '+', ' ', '#']

/-- The flags among some characters, added to those that are set. -/
def Flags.add (flags : Flags) (run : Text) : Flags where
  minus := flags.minus || '-' ∈ run
  zero := flags.zero || '0' ∈ run
  plus := flags.plus || '+' ∈ run
  space := flags.space || ' ' ∈ run
  hash := flags.hash || '#' ∈ run

@[simp]
theorem Flags.add_nil (flags : Flags) : flags.add [] = flags := by
  simp [Flags.add]

theorem Flags.set_eq_none {flags : Flags} {c : Char} (other : isFlag c = false) :
    flags.set c = none := by
  unfold Flags.set
  split
  case h_6 => rfl
  all_goals exact absurd other (by decide)

theorem Flags.set_eq_some (flags : Flags) {c : Char} (isFlag : isFlag c = true) :
    ∃ more, flags.set c = some more ∧ ∀ run, more.add run = flags.add (c :: run) := by
  simp only [KernelFold.isFlag, List.mem_cons, List.not_mem_nil, or_false,
    decide_eq_true_eq] at isFlag
  rcases isFlag with rfl | rfl | rfl | rfl | rfl
  all_goals exact ⟨_, rfl, fun run => by simp [Flags.add]⟩

theorem scanFlags_eq (chars : Text) (flags : Flags) (i : Nat) :
    scanFlags chars flags i = (flags.add ((chars.drop i).takeWhile isFlag),
      i + ((chars.drop i).takeWhile isFlag).length) := by
  induction flags, i using scanFlags.induct chars with
  | case1 flags i inside more set ih =>
      have flagged : isFlag chars[i] = true := by
        by_contra other
        rw [Flags.set_eq_none (Bool.not_eq_true _ ▸ other)] at set
        nomatch set
      rcases flags.set_eq_some flagged with ⟨_, set', added⟩
      rw [set] at set'
      cases set'
      rw [scanFlags, dif_pos inside, set]
      simp only
      rw [ih, List.drop_eq_getElem_cons inside, List.takeWhile_cons_of_pos flagged, added,
        List.length_cons, Nat.add_assoc, Nat.add_comm 1]
  | case2 flags i inside set =>
      have other : isFlag chars[i] ≠ true := by
        intro flagged
        rcases flags.set_eq_some flagged with ⟨_, set', _⟩
        rw [set] at set'
        nomatch set'
      rw [scanFlags, dif_pos inside, set, List.drop_eq_getElem_cons inside,
        List.takeWhile_cons_of_neg other]
      simp
  | case3 flags i outside =>
      rw [scanFlags, dif_neg outside, List.drop_eq_nil_of_le (Nat.not_lt.mp outside)]
      simp

theorem scanDigits_eq (chars digits : Text) (i : Nat) :
    scanDigits chars digits i = (digits ++ (chars.drop i).takeWhile Char.isDigit,
      i + ((chars.drop i).takeWhile Char.isDigit).length) := by
  induction digits, i using scanDigits.induct chars with
  | case1 digits i inside digit ih =>
      rw [scanDigits, dif_pos inside, if_pos digit, ih, List.drop_eq_getElem_cons inside,
        List.takeWhile_cons_of_pos digit, List.append_assoc, List.length_cons, Nat.add_assoc,
        Nat.add_comm 1]
      rfl
  | case2 digits i inside other =>
      rw [scanDigits, dif_pos inside, if_neg other, List.drop_eq_getElem_cons inside,
        List.takeWhile_cons_of_neg other]
      simp
  | case3 digits i outside =>
      rw [scanDigits, dif_neg outside, List.drop_eq_nil_of_le (Nat.not_lt.mp outside)]
      simp

/-! ## Directives -/

/-- The conversions that are supported. -/
def conversions : List Char :=
  ['d', 'i', 'u', 'x', 'X', 'o', 'b', 'B', 's', 'p', 'c']

theorem parseCapped_eq (digits : Text) : parseCapped digits =
    if digitsValue digits ≤ stringFoldByteLimit then some (digitsValue digits) else none := by
  rw [parseCapped, parseUsize]
  by_cases capped : digitsValue digits ≤ stringFoldByteLimit
  · have fits : digitsValue digits < 2 ^ 64 := Nat.lt_of_le_of_lt capped (by decide)
    rw [if_pos fits, if_pos capped]
    exact if_neg (Nat.not_lt.mpr capped)
  · rw [if_neg capped]
    by_cases fits : digitsValue digits < 2 ^ 64
    · rw [if_pos fits]
      exact if_pos (Nat.lt_of_not_le capped)
    · rw [if_neg fits]

theorem conversions_plain : ∀ c ∈ conversions,
    isFlag c = false ∧ c.isDigit = false ∧ c ≠ '.' ∧ c ≠ '*' ∧ c ≠ '$' ∧ c ≠ '%' := by
  simp [conversions, isFlag]

theorem isFlag_of_isDigit {c : Char} (digit : c.isDigit = true) (notZero : c ≠ '0') :
    isFlag c = false := by
  rw [isFlag, decide_eq_false_iff_not]
  simp only [List.mem_cons, List.not_mem_nil, or_false]
  rintro (rfl | rfl | rfl | rfl | rfl)
  all_goals first | exact notZero rfl | exact absurd digit (by decide)

theorem ne_of_isDigit {c d : Char} (digit : c.isDigit = true) (other : d.isDigit = false) :
    c ≠ d := by
  rintro rfl
  rw [digit] at other
  nomatch other

/-- A directive as a template spells it after its `%`. -/
structure Spelled where
  flags : Text
  width : Text
  precision : Option Text
  conv : Char
  flags_ok : ∀ c ∈ flags, isFlag c = true
  width_ok : ∀ c ∈ width, c.isDigit = true
  width_start : width.head? ≠ some '0'
  precision_ok : ∀ digits ∈ precision, ∀ c ∈ digits, c.isDigit = true
  conv_ok : conv ∈ conversions

namespace Spelled

/-- The precision with its period. -/
def precisionText (spelled : Spelled) : Text :=
  match spelled.precision with
  | some digits => '.' :: digits
  | none => []

/-- The text after the `%`. -/
def tail (spelled : Spelled) : Text :=
  spelled.flags ++ (spelled.width ++ (spelled.precisionText ++ [spelled.conv]))

/-- What the directive says. -/
def directive (spelled : Spelled) : Directive where
  flags := Flags.add {} spelled.flags
  width := if spelled.width = [] then none else some (digitsValue spelled.width)
  precision := spelled.precision.map digitsValue
  conv := spelled.conv

section Boundaries

variable (spelled : Spelled) (rest : Text)

/-- The conversion and what follows it. -/
theorem stops_conv (p : Char → Bool) (outside : p spelled.conv = false) :
    Stops p (spelled.conv :: rest) :=
  stops_cons.mpr outside

theorem stops_precisionText (p : Char → Bool) (period : p '.' = false)
    (outside : p spelled.conv = false) :
    Stops p (spelled.precisionText ++ spelled.conv :: rest) := by
  rw [precisionText]
  split
  · exact stops_cons.mpr period
  · exact stops_cons.mpr outside

theorem stops_width : Stops isFlag (spelled.width ++ (spelled.precisionText ++
    spelled.conv :: rest)) := by
  have start := spelled.width_start
  have digits := spelled.width_ok
  cases hasWidth : spelled.width with
  | nil =>
      exact stops_precisionText spelled rest isFlag (by decide)
        (conversions_plain _ spelled.conv_ok).1
  | cons c more =>
      rw [hasWidth] at start digits
      rw [List.cons_append, stops_cons]
      exact isFlag_of_isDigit (digits c List.mem_cons_self) (fun zero => start (congrArg some zero))

theorem tail_append : spelled.tail ++ rest = spelled.flags ++ (spelled.width ++
    (spelled.precisionText ++ spelled.conv :: rest)) := by
  simp [tail]

end Boundaries

end Spelled

/-! ## Reading a directive -/

section Reading

variable {chars : Text} {i j : Nat}

theorem getElem?_of_drop {rest : Text} (at_ : chars.drop i = rest) : chars[i]? = rest.head? := by
  rw [← at_, List.head?_drop]

theorem drop_add_length {front back : Text} (at_ : chars.drop i = front ++ back) :
    chars.drop (i + front.length) = back := by
  rw [← List.drop_drop, at_, List.drop_left]

theorem drop_succ_of_drop {c : Char} {back : Text} (at_ : chars.drop i = c :: back) :
    chars.drop (i + 1) = back := by
  rw [← List.drop_drop, at_, List.drop_one, List.tail_cons]

theorem drop_of_getElem? {α : Type} {items : List α} {a : α} (at_ : items[i]? = some a) :
    items.drop i = a :: items.drop (i + 1) := by
  rcases List.getElem?_eq_some_iff.mp at_ with ⟨inside, rfl⟩
  exact List.drop_eq_getElem_cons inside

/-- The text from a position on starts with a longest run of a class. -/
theorem exists_cut (p : Char → Bool) (chars : Text) (i : Nat) :
    ∃ run back, chars.drop i = run ++ back ∧ (∀ c ∈ run, p c = true) ∧ Stops p back :=
  ⟨_, _, List.takeWhile_append_dropWhile.symm, fun _ => List.mem_takeWhile_imp,
    stops_dropWhile _⟩

theorem scanFlags_cut {run back : Text} (at_ : chars.drop i = run ++ back)
    (inside : ∀ c ∈ run, isFlag c = true) (stops : Stops isFlag back) :
    scanFlags chars {} i = (Flags.add {} run, i + run.length) := by
  rw [scanFlags_eq, at_, takeWhile_eq inside stops]

theorem scanDigits_cut {run back : Text} (at_ : chars.drop i = run ++ back)
    (inside : ∀ c ∈ run, c.isDigit = true) (stops : Stops Char.isDigit back) :
    scanDigits chars [] i = (run, i + run.length) := by
  rw [scanDigits_eq, at_, takeWhile_eq inside stops, List.nil_append]

/-- The value of a width: none where there are no digits. -/
def widthValue (width : Text) : Option Nat :=
  if width = [] then none else some (digitsValue width)

theorem read_eq_some_iff {width : Text} {value : Option Nat} :
    (if width = [] then some (none, i) else (parseCapped width).map fun w => (some w, i)) =
        some (value, j) ↔
      (∀ w ∈ widthValue width, w ≤ stringFoldByteLimit) ∧ value = widthValue width ∧ j = i := by
  rw [widthValue, parseCapped_eq]
  by_cases empty : width = []
  · rw [if_pos empty, if_pos empty]
    constructor
    · rintro ⟨⟩
      exact ⟨nofun, rfl, rfl⟩
    · rintro ⟨_, rfl, rfl⟩
      rfl
  · rw [if_neg empty, if_neg empty]
    by_cases capped : digitsValue width ≤ stringFoldByteLimit
    · rw [if_pos capped]
      constructor
      · rintro ⟨⟩
        refine ⟨?_, rfl, rfl⟩
        rintro w ⟨⟩
        exact capped
      · rintro ⟨_, rfl, rfl⟩
        rfl
    · rw [if_neg capped]
      exact iff_of_false nofun (fun facts => capped (facts.1 _ rfl))

theorem readWidth_eq_some {width back : Text} {value : Option Nat}
    (at_ : chars.drop i = width ++ back) (inside : ∀ c ∈ width, c.isDigit = true)
    (stops : Stops Char.isDigit back) : readWidth chars i = some (value, j) ↔
      (width ++ back).head? ≠ some '*' ∧ back.head? ≠ some '$' ∧
        (∀ w ∈ widthValue width, w ≤ stringFoldByteLimit) ∧
        value = widthValue width ∧ j = i + width.length := by
  rw [readWidth, scanDigits_cut at_ inside stops, getElem?_of_drop at_]
  simp only [getElem?_of_drop (drop_add_length at_)]
  by_cases star : (width ++ back).head? = some '*'
  · rw [if_pos star]
    exact iff_of_false nofun (fun facts => facts.1 star)
  · rw [if_neg star]
    by_cases dollar : back.head? = some '$'
    · rw [if_pos dollar]
      exact iff_of_false nofun (fun facts => facts.2.1 dollar)
    · rw [if_neg dollar, read_eq_some_iff]
      exact ⟨fun facts => ⟨star, dollar, facts⟩, fun facts => facts.2.2⟩

theorem readPrecision_eq_some_of_period {digits back : Text} {value : Option Nat}
    (at_ : chars.drop i = '.' :: (digits ++ back)) (inside : ∀ c ∈ digits, c.isDigit = true)
    (stops : Stops Char.isDigit back) : readPrecision chars i = some (value, j) ↔
      (digits ++ back).head? ≠ some '*' ∧ digitsValue digits ≤ stringFoldByteLimit ∧
        value = some (digitsValue digits) ∧ j = i + 1 + digits.length := by
  have after := drop_succ_of_drop at_
  rw [readPrecision, scanDigits_cut after inside stops, getElem?_of_drop at_,
    getElem?_of_drop after, if_pos (List.head?_cons ..)]
  simp only
  by_cases star : (digits ++ back).head? = some '*'
  · rw [if_pos star]
    exact iff_of_false nofun (fun facts => facts.1 star)
  · rw [if_neg star]
    by_cases empty : digits = []
    · subst empty
      have zero : digitsValue [] = 0 := rfl
      rw [if_pos rfl, zero]
      constructor
      · rintro ⟨⟩
        exact ⟨star, Nat.zero_le _, rfl, rfl⟩
      · rintro ⟨_, _, rfl, rfl⟩
        rfl
    · rw [if_neg empty, parseCapped_eq]
      by_cases capped : digitsValue digits ≤ stringFoldByteLimit
      · rw [if_pos capped]
        constructor
        · rintro ⟨⟩
          exact ⟨star, capped, rfl, rfl⟩
        · rintro ⟨_, _, rfl, rfl⟩
          rfl
      · rw [if_neg capped]
        exact iff_of_false nofun (fun facts => capped facts.2.1)

theorem readPrecision_of_none (noPeriod : chars[i]? ≠ some '.') :
    readPrecision chars i = some (none, i) :=
  if_neg noPeriod

/-- Whatever is read, width and precision are within the limit. -/
theorem readDirective_capped {d : Directive} (read : readDirective chars i = some (d, j)) :
    d.Capped := by
  simp only [readDirective, Option.bind_eq_bind, Option.bind_eq_some_iff] at read
  rcases read with ⟨⟨width, k⟩, readWidth, ⟨precision, l⟩, readPrecision, conv, _, ⟨⟩⟩
  constructor
  · rcases exists_cut Char.isDigit chars (scanFlags chars {} i).2 with
      ⟨run, back, at_, inside, stops⟩
    rw [readWidth_eq_some at_ inside stops] at readWidth
    rcases readWidth with ⟨_, _, capped, rfl, _⟩
    exact capped
  · by_cases period : chars[k]? = some '.'
    · have start := drop_of_getElem? period
      rcases exists_cut Char.isDigit chars (k + 1) with ⟨run, back, at_, inside, stops⟩
      rw [at_] at start
      rw [readPrecision_eq_some_of_period start inside stops] at readPrecision
      rcases readPrecision with ⟨_, capped, rfl, _⟩
      rintro p ⟨⟩
      exact capped
    · rw [readPrecision_of_none period] at readPrecision
      cases readPrecision
      nofun

/-- What is read for a supported conversion is a directive that the template spells. -/
theorem readDirective_sound {d : Directive} (read : readDirective chars i = some (d, j))
    (supported : d.conv ∈ conversions) :
    ∃ spelled : Spelled, chars.drop i = spelled.tail ++ chars.drop j ∧ spelled.directive = d ∧
      j = i + spelled.tail.length := by
  simp only [readDirective, Option.bind_eq_bind, Option.bind_eq_some_iff] at read
  rcases read with ⟨⟨width, k⟩, readWidth, ⟨precision, l⟩, readPrecision, conv, atConv, ⟨⟩⟩
  rcases exists_cut isFlag chars i with ⟨flags, back, atFlags, allFlags, flagsStop⟩
  rw [scanFlags_cut atFlags allFlags flagsStop] at readWidth ⊢
  rcases exists_cut Char.isDigit chars (i + flags.length) with
    ⟨digits, after, atWidth, allDigits, digitsStop⟩
  rw [readWidth_eq_some atWidth allDigits digitsStop] at readWidth
  rcases readWidth with ⟨_, _, _, rfl, rfl⟩
  rw [drop_add_length atFlags] at atWidth
  have start : digits.head? ≠ some '0' := by
    intro zero
    rcases List.head?_eq_some_iff.mp zero with ⟨others, rfl⟩
    rw [atWidth, List.cons_append, stops_cons] at flagsStop
    exact absurd flagsStop (by decide)
  rw [atWidth] at atFlags
  have atAfter : chars.drop (i + flags.length + digits.length) = after :=
    drop_add_length (drop_add_length atFlags)
  have atEnd := drop_of_getElem? atConv
  by_cases period : chars[i + flags.length + digits.length]? = some '.'
  · have startPrecision := drop_of_getElem? period
    rcases exists_cut Char.isDigit chars (i + flags.length + digits.length + 1) with
      ⟨places, last, atPlaces, allPlaces, placesStop⟩
    rw [atPlaces] at startPrecision
    rw [readPrecision_eq_some_of_period startPrecision allPlaces placesStop] at readPrecision
    rcases readPrecision with ⟨_, _, rfl, rfl⟩
    rw [drop_add_length atPlaces] at atEnd
    refine ⟨⟨flags, digits, some places, conv, allFlags, allDigits, start, ?_, supported⟩, ?_, rfl,
      ?_⟩
    · rintro _ ⟨⟩
      exact allPlaces
    · rw [atFlags, ← atAfter, startPrecision, atEnd]
      simp [Spelled.tail, Spelled.precisionText]
    · simp [Spelled.tail, Spelled.precisionText]
      omega
  · rw [readPrecision_of_none period] at readPrecision
    cases readPrecision
    rw [atAfter] at atEnd
    refine ⟨⟨flags, digits, none, conv, allFlags, allDigits, start, nofun, supported⟩, ?_, rfl, ?_⟩
    · rw [atFlags, atEnd]
      simp [Spelled.tail, Spelled.precisionText]
    · simp [Spelled.tail, Spelled.precisionText]
      omega

variable (spelled : Spelled) {rest : Text}

theorem readWidth_spelled {value : Option Nat} (at_ : chars.drop i = spelled.width ++
    (spelled.precisionText ++ spelled.conv :: rest)) : readWidth chars i = some (value, j) ↔
      (∀ w ∈ spelled.directive.width, w ≤ stringFoldByteLimit) ∧
        value = spelled.directive.width ∧ j = i + spelled.width.length := by
  have plain := conversions_plain _ spelled.conv_ok
  have after : ∀ c, c ≠ '.' → spelled.conv ≠ c →
      (spelled.precisionText ++ spelled.conv :: rest).head? ≠ some c := by
    intro c notPeriod other
    rw [Spelled.precisionText]
    split
    · exact fun starts => notPeriod (Option.some.inj starts).symm
    · exact fun starts => other (Option.some.inj starts)
  have star : (spelled.width ++ (spelled.precisionText ++ spelled.conv :: rest)).head? ≠
      some '*' := by
    have digits := spelled.width_ok
    cases hasWidth : spelled.width with
    | nil => exact after '*' (by decide) plain.2.2.2.1
    | cons c more =>
        rw [hasWidth] at digits
        intro starts
        exact ne_of_isDigit (digits c List.mem_cons_self) (by decide) (Option.some.inj starts)
  rw [readWidth_eq_some at_ spelled.width_ok
    (spelled.stops_precisionText rest Char.isDigit (by decide) plain.2.1)]
  exact ⟨fun facts => facts.2.2,
    fun facts => ⟨star, after '$' (by decide) plain.2.2.2.2.1, facts⟩⟩

theorem readPrecision_spelled {value : Option Nat}
    (at_ : chars.drop i = spelled.precisionText ++ spelled.conv :: rest) :
    readPrecision chars i = some (value, j) ↔
      (∀ p ∈ spelled.directive.precision, p ≤ stringFoldByteLimit) ∧
        value = spelled.directive.precision ∧ j = i + spelled.precisionText.length := by
  have plain := conversions_plain _ spelled.conv_ok
  have digits := spelled.precision_ok
  rw [Spelled.precisionText] at at_ ⊢
  rw [Spelled.directive]
  cases given : spelled.precision with
  | none =>
      rw [given] at at_
      have noPeriod : chars[i]? ≠ some '.' := by
        rw [getElem?_of_drop at_]
        exact fun starts => plain.2.2.1 (Option.some.inj starts)
      rw [readPrecision_of_none noPeriod]
      constructor
      · rintro ⟨⟩
        exact ⟨nofun, rfl, rfl⟩
      · rintro ⟨_, rfl, rfl⟩
        rfl
  | some places =>
      rw [given] at at_ digits
      have allDigits := digits places rfl
      have star : (places ++ spelled.conv :: rest).head? ≠ some '*' := by
        cases places with
        | nil => exact fun starts => plain.2.2.2.1 (Option.some.inj starts)
        | cons c more =>
            intro starts
            exact ne_of_isDigit (allDigits c List.mem_cons_self) (by decide)
              (Option.some.inj starts)
      rw [readPrecision_eq_some_of_period at_ allDigits
        (spelled.stops_conv rest Char.isDigit plain.2.1)]
      simp only [Option.map_some, Option.mem_some_iff, forall_eq', List.length_cons]
      constructor
      · rintro ⟨_, capped, rfl, rfl⟩
        exact ⟨capped, rfl, by omega⟩
      · rintro ⟨capped, rfl, rfl⟩
        exact ⟨star, capped, rfl, by omega⟩

/-- A spelled directive is read, and nothing else, exactly if it is within the limit. -/
theorem readDirective_spelled {d : Directive} (at_ : chars.drop i = spelled.tail ++ rest) :
    readDirective chars i = some (d, j) ↔
      spelled.directive.Capped ∧ d = spelled.directive ∧ j = i + spelled.tail.length := by
  rw [spelled.tail_append] at at_
  have atWidth := drop_add_length at_
  have atPrecision := drop_add_length atWidth
  have atConv := drop_add_length atPrecision
  have length : spelled.tail.length = spelled.flags.length + spelled.width.length +
      spelled.precisionText.length + 1 := by
    simp [Spelled.tail]
    omega
  have conv := getElem?_of_drop atConv
  rw [List.head?_cons] at conv
  simp only [readDirective, Option.bind_eq_bind, Option.bind_eq_some_iff,
    scanFlags_cut at_ spelled.flags_ok (spelled.stops_width rest), Prod.exists,
    readWidth_spelled spelled atWidth]
  constructor
  · rintro ⟨_, _, ⟨width, rfl, rfl⟩, _, _, precision, _, atEnd, ⟨⟩⟩
    rw [readPrecision_spelled spelled atPrecision] at precision
    rcases precision with ⟨precision, rfl, rfl⟩
    rw [conv] at atEnd
    cases atEnd
    exact ⟨⟨width, precision⟩, rfl, by omega⟩
  · rintro ⟨capped, rfl, rfl⟩
    refine ⟨_, _, ⟨capped.width, rfl, rfl⟩, _, _,
      (readPrecision_spelled spelled atPrecision).mpr ⟨capped.precision, rfl, rfl⟩, _, conv, ?_⟩
    rw [length]
    simp only [Nat.add_assoc]
    rfl

end Reading

/-! ## Pieces -/

/-- A piece of a template. -/
inductive Piece where
  | literal (c : Char) (plain : c ≠ '%')
  | percent
  | directive (spelled : Spelled)

namespace Piece

def text : Piece → Text
  | literal c _ => [c]
  | percent => ['%', '%']
  | directive spelled => '%' :: spelled.tail

/-- The pieces that take an argument. -/
def consumes : Piece → Bool
  | directive _ => true
  | _ => false

end Piece

/-- The template of some pieces. -/
def spelling (pieces : List Piece) : Text :=
  pieces.flatMap Piece.text

section Unique

variable {rest rest' : Text}

theorem Spelled.precision_unique {spelled spelled' : Spelled}
    (same : spelled.precisionText ++ spelled.conv :: rest =
      spelled'.precisionText ++ spelled'.conv :: rest') :
    spelled.precision = spelled'.precision ∧ spelled.conv = spelled'.conv ∧ rest = rest' := by
  have plain := conversions_plain _ spelled.conv_ok
  have plain' := conversions_plain _ spelled'.conv_ok
  have digits := spelled.precision_ok
  have digits' := spelled'.precision_ok
  rw [precisionText, precisionText] at same
  cases given : spelled.precision <;> cases given' : spelled'.precision <;>
    rw [given, given'] at same
  case none.none =>
    injection same with conv rest
    exact ⟨rfl, conv, rest⟩
  case none.some =>
    injection same with period _
    exact absurd period plain.2.2.1
  case some.none =>
    injection same with period _
    exact absurd period.symm plain'.2.2.1
  case some.some places places' =>
    injection same with _ places
    rcases cut_unique places (digits _ given) (digits' _ given')
      (spelled.stops_conv rest Char.isDigit plain.2.1)
      (spelled'.stops_conv rest' Char.isDigit plain'.2.1) with ⟨rfl, after⟩
    injection after with conv rest
    exact ⟨rfl, conv, rest⟩

theorem Spelled.tail_unique {spelled spelled' : Spelled}
    (same : spelled.tail ++ rest = spelled'.tail ++ rest') : spelled = spelled' ∧ rest = rest' := by
  rw [tail_append, tail_append] at same
  rcases cut_unique same spelled.flags_ok spelled'.flags_ok (spelled.stops_width rest)
    (spelled'.stops_width rest') with ⟨flags, same⟩
  rcases cut_unique same spelled.width_ok spelled'.width_ok
    (spelled.stops_precisionText rest Char.isDigit (by decide)
      (conversions_plain _ spelled.conv_ok).2.1)
    (spelled'.stops_precisionText rest' Char.isDigit (by decide)
      (conversions_plain _ spelled'.conv_ok).2.1) with ⟨width, same⟩
  rcases precision_unique same with ⟨precision, conv, rest⟩
  refine ⟨?_, rest⟩
  cases spelled
  cases spelled'
  cases flags
  cases width
  cases precision
  cases conv
  rfl

/-- A directive does not start with a second `%`. -/
theorem Spelled.tail_ne_percent (spelled : Spelled) : spelled.tail ++ rest ≠ '%' :: rest' := by
  intro same
  have mem : '%' ∈ spelled.tail := by
    cases tail : spelled.tail with
    | nil => simp [Spelled.tail] at tail
    | cons c more =>
        rw [tail] at same
        injection same with first _
        exact first ▸ List.mem_cons_self
  have digits := spelled.precision_ok
  simp only [Spelled.tail, precisionText, List.mem_append, List.mem_singleton] at mem
  rcases mem with flag | width | precision | conv
  · exact absurd (spelled.flags_ok _ flag) (by decide)
  · exact absurd (spelled.width_ok _ width) (by decide)
  · cases given : spelled.precision with
    | none =>
        rw [given] at precision
        cases precision
    | some places =>
        rw [given] at precision
        rcases List.mem_cons.mp precision with period | place
        · exact absurd period (by decide)
        · exact absurd (digits _ given _ place) (by decide)
  · exact (conversions_plain _ spelled.conv_ok).2.2.2.2.2 conv.symm

theorem Piece.text_unique {piece piece' : Piece} (same : piece.text ++ rest = piece'.text ++ rest') :
    piece = piece' ∧ rest = rest' := by
  cases piece with
  | literal c plain =>
      cases piece' with
      | literal c' plain' =>
          injection same with first rest
          cases first
          exact ⟨rfl, rest⟩
      | percent | directive =>
          injection same with first _
          exact absurd first plain
  | percent =>
      cases piece' with
      | literal c' plain' =>
          injection same with first _
          exact absurd first.symm plain'
      | percent =>
          injection same with _ same
          injection same with _ same
          exact ⟨rfl, same⟩
      | directive spelled' =>
          injection same with _ same
          exact absurd same.symm spelled'.tail_ne_percent
  | directive spelled =>
      cases piece' with
      | literal c' plain' =>
          injection same with first _
          exact absurd first.symm plain'
      | percent =>
          injection same with _ same
          exact absurd same spelled.tail_ne_percent
      | directive spelled' =>
          injection same with _ same
          rcases Spelled.tail_unique same with ⟨rfl, rest⟩
          exact ⟨rfl, rest⟩

theorem Piece.text_ne_nil (piece : Piece) : piece.text ≠ [] := by
  cases piece <;> exact List.cons_ne_nil _ _

/-- A template is spelled by at most one list of pieces. -/
theorem spelling_injective {pieces pieces' : List Piece}
    (same : spelling pieces = spelling pieces') : pieces = pieces' := by
  induction pieces generalizing pieces' with
  | nil =>
      cases pieces' with
      | nil => rfl
      | cons piece' more' =>
          exact absurd (List.append_eq_nil_iff.mp same.symm).1 piece'.text_ne_nil
  | cons piece more ih =>
      cases pieces' with
      | nil => exact absurd (List.append_eq_nil_iff.mp same).1 piece.text_ne_nil
      | cons piece' more' =>
          rcases Piece.text_unique same with ⟨rfl, after⟩
          rw [ih after]

end Unique

end Rigor.Infer.KernelFold
