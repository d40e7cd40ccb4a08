import Mathlib.Data.List.Basic
import Mathlib.Data.List.TakeDrop
import Rigor.Library.Separated

/-!
# JSON texts

The grammar of JSON without fractions: which texts spell a value.  A reader by recursive descent reads every such
text as its value, so that no text spells two.
-/

namespace Rigor.Library.Json

open Rigor.Library.Separated

/-- A value: a number is its text, and the members of an object are in order. -/
inductive Value where
  | null
  | bool (b : Bool)
  | number (text : List Char)
  | str (s : List Char)
  | arr (items : List Value)
  | obj (members : List (List Char × Value))

/-! ## The grammar -/

def isBlank (c : Char) : Bool :=
  c = ' ' || c = '\n' || c = '\r' || c = '\t'

/-- Whitespace between tokens. -/
def Blank (text : List Char) : Prop :=
  ∀ c ∈ text, isBlank c = true

/-- The character of a short escape. -/
def shortEscape (c : Char) : Option Char :=
  if c = '"' then some '"'
  else if c = '\\' then some '\\'
  else if c = '/' then some '/'
  else if c = 'b' then some '\x08'
  else if c = 'f' then some '\x0c'
  else if c = 'n' then some '\n'
  else if c = 'r' then some '\r'
  else if c = 't' then some '\t'
  else none

def hexValue (c : Char) : Option Nat :=
  if '0' ≤ c ∧ c ≤ '9' then some (c.toNat - '0'.toNat)
  else if 'a' ≤ c ∧ c ≤ 'f' then some (c.toNat - 'a'.toNat + 10)
  else if 'A' ≤ c ∧ c ≤ 'F' then some (c.toNat - 'A'.toNat + 10)
  else none

/-- The character of four hexadecimal digits, which is no half of a surrogate pair. -/
def hexCode (a b c d : Char) : Option Char := do
  let code := (((← hexValue a) * 16 + (← hexValue b)) * 16 + (← hexValue c)) * 16 + (← hexValue d)
  if 0xd800 ≤ code ∧ code ≤ 0xdfff then none else some (Char.ofNat code)

/-- The text between the quotes of a string. -/
inductive Chars : List Char → List Char → Prop where
  | nil : Chars [] []
  | plain {c : Char} {s t : List Char} (quote : c ≠ '"') (escape : c ≠ '\\') (control : ¬c.toNat < 0x20)
      (rest : Chars s t) : Chars (c :: s) (c :: t)
  | short {e c : Char} {s t : List Char} (escape : shortEscape e = some c) (rest : Chars s t) :
      Chars (c :: s) ('\\' :: e :: t)
  | code {a b c d x : Char} {s t : List Char} (code : hexCode a b c d = some x) (rest : Chars s t) :
      Chars (x :: s) ('\\' :: 'u' :: a :: b :: c :: d :: t)

/-- An integer in decimal. -/
def intText (n : Int) : List Char :=
  if n < 0 then '-' :: Nat.toDigits 10 n.natAbs else Nat.toDigits 10 n.natAbs

mutual

/-- The text spells the value. -/
inductive Spells : Value → List Char → Prop where
  | null : Spells .null ['n', 'u', 'l', 'l']
  | true : Spells (.bool true) ['t', 'r', 'u', 'e']
  | false : Spells (.bool false) ['f', 'a', 'l', 's', 'e']
  | int (n : Int) : Spells (.number (intText n)) (intText n)
  | str {s t : List Char} (chars : Chars s t) : Spells (.str s) ('"' :: (t ++ ['"']))
  | arrNil {w : List Char} (blank : Blank w) : Spells (.arr []) ('[' :: (w ++ [']']))
  | arr {items : List Value} {t : List Char} (each : Items items t) : Spells (.arr items) ('[' :: (t ++ [']']))
  | objNil {w : List Char} (blank : Blank w) : Spells (.obj []) ('\x7b' :: (w ++ ['\x7d']))
  | obj {members : List (List Char × Value)} {t : List Char} (each : Members members t) :
      Spells (.obj members) ('\x7b' :: (t ++ ['\x7d']))

/-- The items of an array, with commas between them. -/
inductive Items : List Value → List Char → Prop where
  | single {v : Value} {w t w' : List Char} (before : Blank w) (value : Spells v t) (after : Blank w') :
      Items [v] (w ++ (t ++ w'))
  | cons {v : Value} {items : List Value} {w t w' t' : List Char} (before : Blank w) (value : Spells v t)
      (after : Blank w') (rest : Items items t') : Items (v :: items) (w ++ (t ++ (w' ++ ',' :: t')))

/-- A name, a colon and a value. -/
inductive Member : List Char × Value → List Char → Prop where
  | mk {k kt : List Char} {v : Value} {w w' w'' t : List Char} (before : Blank w) (name : Chars k kt)
      (colon : Blank w') (middle : Blank w'') (value : Spells v t) :
      Member (k, v) (w ++ '"' :: (kt ++ '"' :: (w' ++ ':' :: (w'' ++ t))))

/-- The members of an object, with commas between them. -/
inductive Members : List (List Char × Value) → List Char → Prop where
  | single {member : List Char × Value} {t w : List Char} (first : Member member t) (after : Blank w) :
      Members [member] (t ++ w)
  | cons {member : List Char × Value} {members : List (List Char × Value)} {t w t' : List Char}
      (first : Member member t) (after : Blank w) (rest : Members members t') :
      Members (member :: members) (t ++ (w ++ ',' :: t'))

end

/-! ## The reader -/

def skipBlank (text : List Char) : List Char :=
  text.dropWhile isBlank

/-- What an escape stands for, after its backslash. -/
def readEscape : List Char → Option (Char × List Char)
  | 'u' :: a :: b :: c :: d :: rest => (hexCode a b c d).map fun x => (x, rest)
  | e :: rest => (shortEscape e).map fun x => (x, rest)
  | [] => none

/-- One character of a string. -/
def readChar : List Char → Option (Char × List Char)
  | [] => none
  | c :: rest =>
      if c = '\\' then readEscape rest else if c.toNat < 0x20 then none else some (c, rest)

/-- The rest of a string, up to its quote. -/
def readChars : Nat → List Char → Option (List Char × List Char)
  | 0, _ => none
  | n + 1, text =>
      if text.head? = some '"' then some ([], text.tail)
      else
        (readChar text).bind fun first =>
          (readChars n first.2).map fun others => (first.1 :: others.1, others.2)

/-- A digit, or what makes a number more than an integer. -/
def inNumber (c : Char) : Bool :=
  c.isDigit || c = '.' || c = 'e' || c = 'E'

def readNat (text : List Char) : Option (Nat × List Char) :=
  let run := text.takeWhile inNumber
  let n := Nat.ofDigitChars 10 run 0
  if Nat.toDigits 10 n = run then some (n, text.dropWhile inNumber) else none

def readInt (text : List Char) : Option (Value × List Char) :=
  if text.head? = some '-' then (readNat text.tail).map fun r => (.number (intText (-(r.1 : Int))), r.2)
  else (readNat text).map fun r => (.number (intText r.1), r.2)

/-- A value that starts with none of the signs. -/
def readAtom (text : List Char) : Option (Value × List Char) :=
  if ['n', 'u', 'l', 'l'].isPrefixOf text then some (.null, text.drop 4)
  else if ['t', 'r', 'u', 'e'].isPrefixOf text then some (.bool true, text.drop 4)
  else if ['f', 'a', 'l', 's', 'e'].isPrefixOf text then some (.bool false, text.drop 5)
  else readInt text

mutual

def readValue : Nat → List Char → Option (Value × List Char)
  | 0, _ => none
  | n + 1, text =>
      if text.head? = some '"' then (readChars n text.tail).map fun r => (.str r.1, r.2)
      else if text.head? = some '[' then
        if (skipBlank text.tail).head? = some ']' then some (.arr [], (skipBlank text.tail).tail)
        else (readItems n text.tail).map fun r => (.arr r.1, r.2)
      else if text.head? = some '\x7b' then
        if (skipBlank text.tail).head? = some '\x7d' then some (.obj [], (skipBlank text.tail).tail)
        else (readMembers n text.tail).map fun r => (.obj r.1, r.2)
      else readAtom text

/-- Items up to the closing bracket. -/
def readItems : Nat → List Char → Option (List Value × List Char)
  | 0, _ => none
  | n + 1, text =>
      (readValue n (skipBlank text)).bind fun first =>
        if (skipBlank first.2).head? = some ']' then some ([first.1], (skipBlank first.2).tail)
        else if (skipBlank first.2).head? = some ',' then
          (readItems n (skipBlank first.2).tail).map fun others => (first.1 :: others.1, others.2)
        else none

/-- A name and its value. -/
def readMember : Nat → List Char → Option ((List Char × Value) × List Char)
  | 0, _ => none
  | n + 1, text =>
      if (skipBlank text).head? = some '"' then
        (readChars n (skipBlank text).tail).bind fun name =>
          if (skipBlank name.2).head? = some ':' then
            (readValue n (skipBlank (skipBlank name.2).tail)).map fun value => ((name.1, value.1), value.2)
          else none
      else none

/-- Members up to the closing brace. -/
def readMembers : Nat → List Char → Option (List (List Char × Value) × List Char)
  | 0, _ => none
  | n + 1, text =>
      (readMember n text).bind fun first =>
        if (skipBlank first.2).head? = some '\x7d' then some ([first.1], (skipBlank first.2).tail)
        else if (skipBlank first.2).head? = some ',' then
          (readMembers n (skipBlank first.2).tail).map fun others => (first.1 :: others.1, others.2)
        else none

end

/-- A whole text. -/
def parse (text : List Char) : Option Value :=
  (readValue (3 * text.length + 3) (skipBlank text)).bind fun r =>
    if skipBlank r.2 = [] then some r.1 else none

/-! ## The reader reads what the grammar spells -/

theorem blank_nil : Blank [] := by
  rintro c ⟨⟩

/-- What may stand behind a value: nothing that would go on with a number. -/
def Follows (rest : List Char) : Prop :=
  ∀ c ∈ rest.head?, inNumber c = false

/-- The first character of a text is no blank. -/
def Solid (text : List Char) : Prop :=
  ∀ c ∈ text.head?, isBlank c = false

theorem skipBlank_of_solid {text : List Char} (solid : Solid text) : skipBlank text = text := by
  cases text with
  | nil => rfl
  | cons c rest => exact List.dropWhile_cons_of_neg (by simp [solid c rfl])

theorem skipBlank_append {w : List Char} (blank : Blank w) {text : List Char} (solid : Solid text) :
    skipBlank (w ++ text) = text := by
  rw [skipBlank, List.dropWhile_append_of_pos blank]
  exact skipBlank_of_solid solid

/-- Blanks and what stands behind a value go on with no number. -/
theorem follows_append {w : List Char} (blank : Blank w) {rest : List Char} (follows : Follows rest) :
    Follows (w ++ rest) := by
  cases w with
  | nil => exact follows
  | cons b w =>
    intro c head
    cases Option.some.inj head
    have isBlank' := blank b List.mem_cons_self
    simp only [isBlank, Bool.or_eq_true, decide_eq_true_eq] at isBlank'
    rcases isBlank' with ((rfl | rfl) | rfl) | rfl <;> rfl

theorem follows_cons {c : Char} (stop : inNumber c = false) (rest : List Char) : Follows (c :: rest) := by
  rintro d ⟨⟩
  exact stop

theorem solid_cons {c : Char} (visible : isBlank c = false) (rest : List Char) : Solid (c :: rest) := by
  rintro d ⟨⟩
  exact visible

/-! ### Strings -/

theorem shortEscape_ne {e c : Char} (escape : shortEscape e = some c) : e ≠ 'u' := by
  rintro rfl
  simp [shortEscape] at escape

theorem readEscape_short {e c : Char} (escape : shortEscape e = some c) (rest : List Char) :
    readEscape (e :: rest) = some (c, rest) := by
  unfold readEscape
  split
  · rename_i same
    exact absurd (List.cons.inj same).1 (shortEscape_ne escape)
  · rename_i same
    cases same
    rw [escape]
    rfl
  · rename_i same
    exact absurd same (List.cons_ne_nil _ _)

theorem readChars_of_chars {s t : List Char} (chars : Chars s t) :
    ∀ {n : Nat} (rest : List Char), t.length < n → readChars n (t ++ '"' :: rest) = some (s, rest) := by
  induction chars with
  | nil =>
    intro n rest enough
    obtain ⟨n, rfl⟩ := Nat.exists_eq_add_one_of_ne_zero (Nat.ne_zero_of_lt enough)
    simp [readChars]
  | @plain c s t quote escape control _ ih =>
    intro n rest enough
    obtain ⟨n, rfl⟩ := Nat.exists_eq_add_one_of_ne_zero (Nat.ne_zero_of_lt enough)
    have inner := @ih n rest (by simp only [List.length_cons] at enough; omega)
    simp [readChars, readChar, quote, escape, control, inner]
  | @short e c s t escape _ ih =>
    intro n rest enough
    obtain ⟨n, rfl⟩ := Nat.exists_eq_add_one_of_ne_zero (Nat.ne_zero_of_lt enough)
    have inner := @ih n rest (by simp only [List.length_cons] at enough; omega)
    simp [readChars, readChar, readEscape_short escape, inner]
  | @code a b c d x s t code _ ih =>
    intro n rest enough
    obtain ⟨n, rfl⟩ := Nat.exists_eq_add_one_of_ne_zero (Nat.ne_zero_of_lt enough)
    have inner := @ih n rest (by simp only [List.length_cons] at enough; omega)
    simp [readChars, readChar, readEscape, code, inner]

/-! ### Integers -/

theorem inNumber_of_isDigit {c : Char} (digit : c.isDigit = true) : inNumber c = true := by
  simp [inNumber, digit]

/-- A run of digits is read to its end. -/
theorem readNat_digits (n : Nat) {rest : List Char} (follows : Follows rest) :
    readNat (Nat.toDigits 10 n ++ rest) = some (n, rest) := by
  have digits : ∀ c ∈ Nat.toDigits 10 n, inNumber c = true := fun c mem =>
    inNumber_of_isDigit (Nat.isDigit_of_mem_toDigits (by omega) (by omega) mem)
  have stops : rest.takeWhile inNumber = [] ∧ rest.dropWhile inNumber = rest := by
    cases rest with
    | nil => exact ⟨rfl, rfl⟩
    | cons c rest =>
      have stop : ¬inNumber c = true := by simp [follows c rfl]
      exact ⟨List.takeWhile_cons_of_neg stop, List.dropWhile_cons_of_neg stop⟩
  simp only [readNat]
  rw [List.takeWhile_append_of_pos digits, List.dropWhile_append_of_pos digits, stops.1, stops.2,
    List.append_nil, Nat.ofDigitChars_ten_toDigits, if_pos rfl]

theorem toDigits_head (n : Nat) : ∃ c rest, Nat.toDigits 10 n = c :: rest ∧ c.isDigit = true := by
  rcases run : Nat.toDigits 10 n with _ | ⟨c, rest⟩
  · exact absurd run Nat.toDigits_ne_nil
  · have mem : c ∈ Nat.toDigits 10 n := by simp [run]
    exact ⟨c, rest, rfl, Nat.isDigit_of_mem_toDigits (by omega) (by omega) mem⟩

/-- An integer starts with its sign or a digit. -/
theorem intText_head (n : Int) : ∃ c rest, intText n = c :: rest ∧ (c = '-' ∨ c.isDigit = true) := by
  unfold intText
  split
  · exact ⟨'-', _, rfl, .inl rfl⟩
  · rcases toDigits_head n.natAbs with ⟨c, rest, head, digit⟩
    exact ⟨c, rest, head, .inr digit⟩

theorem ne_of_sign {c d : Char} (sign : c = '-' ∨ c.isDigit = true) (minus : d ≠ '-')
    (digit : d.isDigit = false) : c ≠ d := by
  rintro rfl
  rcases sign with rfl | isDigit'
  · exact minus rfl
  · simp [digit] at isDigit'

theorem readInt_intText (n : Int) {rest : List Char} (follows : Follows rest) :
    readInt (intText n ++ rest) = some (.number (intText n), rest) := by
  rw [readInt]
  by_cases negative : n < 0
  · have signed : intText n = '-' :: Nat.toDigits 10 n.natAbs := if_pos negative
    have negated : -(n.natAbs : Int) = n := by omega
    rw [signed, List.cons_append, List.head?_cons, if_pos rfl, List.tail_cons, readNat_digits _ follows,
      Option.map_some, negated, signed]
  · have unsigned : intText n = Nat.toDigits 10 n.natAbs := if_neg negative
    have kept : (n.natAbs : Int) = n := by omega
    rcases toDigits_head n.natAbs with ⟨c, digits, head, digit⟩
    have first : (Nat.toDigits 10 n.natAbs ++ rest).head? ≠ some '-' := by
      rw [head]
      rintro same
      cases Option.some.inj same
      simp at digit
    rw [unsigned, if_neg first, readNat_digits _ follows, Option.map_some, kept, unsigned]

theorem readAtom_intText (n : Int) {rest : List Char} (follows : Follows rest) :
    readAtom (intText n ++ rest) = some (.number (intText n), rest) := by
  rcases intText_head n with ⟨c, digits, head, sign⟩
  have word : ∀ d w, d ≠ '-' → d.isDigit = false → (d :: w).isPrefixOf (intText n ++ rest) = false := by
    intro d w minus digit
    have other := beq_eq_false_iff_ne.mpr (ne_of_sign sign minus digit).symm
    rw [head, List.cons_append, List.isPrefixOf_cons_cons, other,
      Bool.false_and]
  unfold readAtom
  rw [word 'n' _ (by simp) rfl, word 't' _ (by simp) rfl, word 'f' _ (by simp) rfl]
  exact readInt_intText n follows

/-! ### Values -/

/-- No value starts with a blank or with the end of a list. -/
theorem head_of_spells {v : Value} {t : List Char} (spells : Spells v t) :
    ∃ c rest, t = c :: rest ∧ isBlank c = false ∧ c ≠ ']' := by
  cases spells with
  | int n =>
    rcases intText_head n with ⟨c, rest, head, sign⟩
    apply Exists.intro c
    apply Exists.intro rest
    apply And.intro head
    simp [isBlank, ne_of_sign sign]
  | _ => exact ⟨_, _, rfl, by simp [isBlank], by simp⟩

theorem solid_of_spells {v : Value} {t : List Char} (spells : Spells v t) (rest : List Char) :
    Solid (t ++ rest) := by
  rcases head_of_spells spells with ⟨c, t', rfl, blank, -⟩
  rintro d ⟨⟩
  exact blank

/-- A list with an item in it does not end before the item. -/
theorem items_start {vs : List Value} {t : List Char} (items : Items vs t) (rest : List Char) :
    (skipBlank (t ++ rest)).head? ≠ some ']' := by
  have start : ∀ {w vt : List Char} {v : Value}, Blank w → Spells v vt → ∀ more,
      (skipBlank (w ++ (vt ++ more))).head? ≠ some ']' := by
    intro w vt v blank spells more
    rw [skipBlank_append blank (solid_of_spells spells more)]
    rcases head_of_spells spells with ⟨c, vt', rfl, -, other⟩
    exact fun same => other (Option.some.inj same)
  cases items with
  | single before value after =>
    rw [List.append_assoc, List.append_assoc]
    exact start before value _
  | cons before value after _ =>
    rw [List.append_assoc, List.append_assoc]
    exact start before value _

theorem member_start {m : List Char × Value} {t : List Char} (member : Member m t) (rest : List Char) :
    (skipBlank (t ++ rest)).head? = some '"' := by
  cases member with
  | mk before name colon middle value =>
    rw [List.append_assoc, List.cons_append, skipBlank_append before (@solid_cons '"' rfl _)]
    rfl

theorem members_start {ms : List (List Char × Value)} {t : List Char} (members : Members ms t)
    (rest : List Char) :
    (skipBlank (t ++ rest)).head? = some '"' := by
  cases members with
  | single first after =>
    rw [List.append_assoc]
    exact member_start first _
  | cons first after _ =>
    rw [List.append_assoc]
    exact member_start first _

/-- The reader of each kind, with a given fuel, on the texts this fuel is enough for. -/
structure Reads (n : Nat) : Prop where
  value : ∀ {v t}, Spells v t → 2 * t.length ≤ n → ∀ {rest}, Follows rest →
    readValue n (t ++ rest) = some (v, rest)
  items : ∀ {vs t}, Items vs t → 2 * t.length + 1 ≤ n → ∀ rest, readItems n (t ++ ']' :: rest) = some (vs, rest)
  member : ∀ {m t}, Member m t → 2 * t.length + 1 ≤ n → ∀ {rest}, Follows rest →
    readMember n (t ++ rest) = some (m, rest)
  members : ∀ {ms t}, Members ms t → 2 * t.length + 2 ≤ n → ∀ rest,
    readMembers n (t ++ '\x7d' :: rest) = some (ms, rest)

theorem readValue_of_reads {n : Nat} (reads : Reads n) {v : Value} {t : List Char} (spells : Spells v t)
    (enough : 2 * t.length ≤ n + 1) {rest : List Char} (follows : Follows rest) :
    readValue (n + 1) (t ++ rest) = some (v, rest) := by
  cases spells with
  | null => simp [readValue, readAtom]
  | true => simp [readValue, readAtom]
  | false => simp [readValue, readAtom]
  | int m =>
    rcases intText_head m with ⟨c, digits, head, sign⟩
    have first : ∀ d, d ≠ '-' → d.isDigit = Bool.false → (intText m ++ rest).head? ≠ some d := by
      intro d minus digit same
      rw [head] at same
      exact ne_of_sign sign minus digit (Option.some.inj same)
    rw [readValue, if_neg (first '"' (by simp) rfl), if_neg (first '[' (by simp) rfl),
      if_neg (first '\x7b' (by simp) rfl)]
    exact readAtom_intText m follows
  | @str s t chars =>
    have inner := @readChars_of_chars s t chars n rest (by simp at enough; omega)
    simp [readValue, inner]
  | @arrNil w blank =>
    have skipped : skipBlank (w ++ ']' :: rest) = ']' :: rest := skipBlank_append blank (solid_cons rfl _)
    simp [readValue, skipped]
  | @arr items t each =>
    have inner := reads.items each (by simp at enough; omega) rest
    have begins := items_start each (']' :: rest)
    simp [readValue, inner, begins]
  | @objNil w blank =>
    have skipped : skipBlank (w ++ '\x7d' :: rest) = '\x7d' :: rest := skipBlank_append blank (solid_cons rfl _)
    simp [readValue, skipped]
  | @obj members t each =>
    have inner := reads.members each (by simp at enough; omega) rest
    have begins := members_start each ('\x7d' :: rest)
    simp [readValue, inner, begins]

theorem readItems_of_reads {n : Nat} (reads : Reads n) {vs : List Value} {t : List Char} (items : Items vs t)
    (enough : 2 * t.length + 1 ≤ n + 1) (rest : List Char) :
    readItems (n + 1) (t ++ ']' :: rest) = some (vs, rest) := by
  cases items with
  | @single v w t w' before value after =>
    have room : 2 * t.length ≤ n := by simp at enough; omega
    have first := reads.value value room (follows_append after (@follows_cons ']' rfl rest))
    have skipped : skipBlank (w' ++ ']' :: rest) = ']' :: rest := skipBlank_append after (solid_cons rfl _)
    rw [readItems, List.append_assoc, List.append_assoc, skipBlank_append before (solid_of_spells value _),
      first]
    simp [skipped]
  | @cons v items w t w' t' before value after others =>
    have room : 2 * t.length ≤ n := by simp at enough; omega
    have room' : 2 * t'.length + 1 ≤ n := by simp at enough; omega
    have first := reads.value value room (follows_append after (@follows_cons ',' rfl (t' ++ ']' :: rest)))
    have skipped : skipBlank (w' ++ ',' :: (t' ++ ']' :: rest)) = ',' :: (t' ++ ']' :: rest) :=
      skipBlank_append after (solid_cons rfl _)
    rw [readItems, List.append_assoc, List.append_assoc, List.append_assoc, List.cons_append,
      skipBlank_append before (solid_of_spells value _), first]
    simp [skipped, reads.items others room' rest]

theorem readMember_of_reads {n : Nat} (reads : Reads n) {m : List Char × Value} {t : List Char}
    (member : Member m t) (enough : 2 * t.length + 1 ≤ n + 1) {rest : List Char} (follows : Follows rest) :
    readMember (n + 1) (t ++ rest) = some (m, rest) := by
  cases member with
  | @mk k kt v w w' w'' t before name colon middle value =>
    have room : 2 * t.length ≤ n := by simp at enough; omega
    have inner := @readChars_of_chars k kt name n (w' ++ ':' :: (w'' ++ (t ++ rest))) (by simp at enough; omega)
    have first := reads.value value room follows
    have opened : skipBlank (w ++ '"' :: (kt ++ '"' :: (w' ++ ':' :: (w'' ++ (t ++ rest))))) =
        '"' :: (kt ++ '"' :: (w' ++ ':' :: (w'' ++ (t ++ rest)))) := skipBlank_append before (solid_cons rfl _)
    have separated : skipBlank (w' ++ ':' :: (w'' ++ (t ++ rest))) = ':' :: (w'' ++ (t ++ rest)) :=
      skipBlank_append colon (solid_cons rfl _)
    have reached : skipBlank (w'' ++ (t ++ rest)) = t ++ rest :=
      skipBlank_append middle (solid_of_spells value rest)
    simp [readMember, opened, inner, separated, reached, first]

theorem readMembers_of_reads {n : Nat} (reads : Reads n) {ms : List (List Char × Value)} {t : List Char}
    (members : Members ms t) (enough : 2 * t.length + 2 ≤ n + 1) (rest : List Char) :
    readMembers (n + 1) (t ++ '\x7d' :: rest) = some (ms, rest) := by
  cases members with
  | @single m t w first after =>
    have room : 2 * t.length + 1 ≤ n := by simp at enough; omega
    have read := reads.member first room (follows_append after (@follows_cons '\x7d' rfl rest))
    have skipped : skipBlank (w ++ '\x7d' :: rest) = '\x7d' :: rest := skipBlank_append after (solid_cons rfl _)
    rw [readMembers, List.append_assoc, read]
    simp [skipped]
  | @cons m ms t w t' first after others =>
    have room : 2 * t.length + 1 ≤ n := by simp at enough; omega
    have room' : 2 * t'.length + 2 ≤ n := by simp at enough; omega
    have read := reads.member first room (follows_append after (@follows_cons ',' rfl (t' ++ '\x7d' :: rest)))
    have skipped : skipBlank (w ++ ',' :: (t' ++ '\x7d' :: rest)) = ',' :: (t' ++ '\x7d' :: rest) :=
      skipBlank_append after (solid_cons rfl _)
    rw [readMembers, List.append_assoc, List.append_assoc, List.cons_append, read]
    simp [skipped, reads.members others room' rest]

theorem reads (n : Nat) : Reads n := by
  induction n with
  | zero =>
    constructor
    · intro v t spells enough
      rcases head_of_spells spells with ⟨c, t', rfl, -, -⟩
      simp at enough
    · intro vs t _ enough
      simp at enough
    · intro m t _ enough
      simp at enough
    · intro ms t _ enough
      simp at enough
  | succ n ih =>
    constructor
    · exact fun spells enough _ => readValue_of_reads ih spells enough
    · exact readItems_of_reads ih
    · exact fun member enough _ => readMember_of_reads ih member enough
    · exact readMembers_of_reads ih

/-- A text is read as the value it spells. -/
theorem parse_of_spells {v : Value} {w t w' : List Char} (before : Blank w) (spells : Spells v t)
    (after : Blank w') : parse (w ++ (t ++ w')) = some v := by
  have ends : Follows w' := by simpa using @follows_append w' after [] (by rintro c ⟨⟩)
  have read := (reads (3 * (w ++ (t ++ w')).length + 3)).value spells
    (by simp only [List.length_append]; omega) ends
  have nothing : skipBlank w' = [] := by simpa using @skipBlank_append w' after [] (by rintro c ⟨⟩)
  rw [parse, skipBlank_append before (solid_of_spells spells w'), read]
  simp [nothing]

/-- No text spells two values. -/
theorem spells_unique {v v' : Value} {t : List Char} (spells : Spells v t) (spells' : Spells v' t) :
    v = v' := by
  have read := parse_of_spells blank_nil spells blank_nil
  rw [parse_of_spells blank_nil spells' blank_nil] at read
  exact (Option.some.inj read).symm

/-! ## Writing -/

section Writing

universe u

variable {α : Type u} {value : α → Value} {name : α → List Char} {write : α → List Char}

/-- A name and its value without blanks. -/
theorem member_compact {k kt : List Char} {v : Value} {t : List Char} (chars : Chars k kt)
    (spells : Spells v t) : Member (k, v) ('"' :: (kt ++ '"' :: ':' :: t)) :=
  @Member.mk k kt v [] [] [] t blank_nil chars blank_nil blank_nil spells

/-- A name and its value with a blank after the colon. -/
theorem member_spaced {k kt : List Char} {v : Value} {w t : List Char} (before : Blank w) (chars : Chars k kt)
    (spells : Spells v t) : Member (k, v) (w ++ '"' :: (kt ++ '"' :: ':' :: ' ' :: t)) :=
  @Member.mk k kt v w [] [' '] t before chars blank_nil (List.all_eq_true.mp (by rfl)) spells

/-- Items with the same blank before each of them, and a blank at the end. -/
theorem items_intercalate (spells : ∀ x, Spells (value x) (write x)) {w w' : List Char} (before : Blank w)
    (after : Blank w') (x : α) (xs : List α) :
    Items ((x :: xs).map value) ([','].intercalate ((x :: xs).map fun x => w ++ write x) ++ w') := by
  induction xs generalizing x with
  | nil => simpa using Items.single before (spells x) after
  | cons y ys ih =>
    have others : ((y :: ys).map fun x => w ++ write x) ≠ [] := List.cons_ne_nil _ _
    change Items (value x :: (y :: ys).map value)
      ([','].intercalate ((w ++ write x) :: (y :: ys).map fun x => w ++ write x) ++ w')
    rw [intercalate_cons_of_ne_nil ',' _ others]
    simpa using Items.cons before (spells x) blank_nil (ih y)

theorem members_intercalate (each : ∀ x, Member (name x, value x) (write x)) {w : List Char} (after : Blank w)
    (x : α) (xs : List α) :
    Members ((x :: xs).map fun x => (name x, value x)) ([','].intercalate ((x :: xs).map write) ++ w) := by
  induction xs generalizing x with
  | nil => simpa using Members.single (each x) after
  | cons y ys ih =>
    have others : (y :: ys).map write ≠ [] := List.cons_ne_nil _ _
    change Members ((name x, value x) :: (y :: ys).map fun x => (name x, value x))
      ([','].intercalate (write x :: (y :: ys).map write) ++ w)
    rw [intercalate_cons_of_ne_nil ',' _ others]
    simpa using Members.cons (each x) blank_nil (ih y)

/-- An array without blanks. -/
theorem spells_array (spells : ∀ x, Spells (value x) (write x)) (xs : List α) :
    Spells (.arr (xs.map value)) ('[' :: ([','].intercalate (xs.map write) ++ [']'])) := by
  cases xs with
  | nil => exact Spells.arrNil blank_nil
  | cons x xs => exact Spells.arr (by simpa using items_intercalate spells blank_nil blank_nil x xs)

/-- An object without blanks. -/
theorem spells_object (each : ∀ x, Member (name x, value x) (write x)) (xs : List α) :
    Spells (.obj (xs.map fun x => (name x, value x)))
      ('\x7b' :: ([','].intercalate (xs.map write) ++ ['\x7d'])) := by
  cases xs with
  | nil => exact Spells.objNil blank_nil
  | cons x xs => exact Spells.obj (by simpa using members_intercalate each blank_nil x xs)

/-- A member in front of those of an object. -/
theorem spells_cons {member : List Char × Value} {members : List (List Char × Value)} {mt t : List Char}
    (first : Member member mt) (some : members ≠ []) (spells : Spells (.obj members) ('\x7b' :: t)) :
    Spells (.obj (member :: members)) ('\x7b' :: (mt ++ ',' :: t)) := by
  cases spells with
  | objNil => contradiction
  | obj each =>
    have all := Spells.obj (Members.cons first blank_nil each)
    simpa using all

/-- Some text spells the value. -/
def Spellable (v : Value) : Prop :=
  ∃ t, Spells v t

theorem spellable_arr {items : List Value} (each : ∀ v ∈ items, Spellable v) : Spellable (.arr items) := by
  have spelled : ∀ v vs, (∀ x ∈ v :: vs, Spellable x) → ∃ t, Items (v :: vs) t := by
    intro v vs each
    induction vs generalizing v with
    | nil =>
      rcases each v List.mem_cons_self with ⟨t, spells⟩
      exact ⟨_, Items.single blank_nil spells blank_nil⟩
    | cons x vs ih =>
      rcases each v List.mem_cons_self with ⟨t, spells⟩
      rcases ih x (fun y mem => each y (List.mem_cons_of_mem _ mem)) with ⟨rest, others⟩
      exact ⟨_, Items.cons blank_nil spells blank_nil others⟩
  cases items with
  | nil => exact ⟨_, Spells.arrNil blank_nil⟩
  | cons v vs =>
    rcases spelled v vs each with ⟨t, all⟩
    exact ⟨_, Spells.arr all⟩

theorem spellable_obj {members : List (List Char × Value)} (each : ∀ m ∈ members, ∃ t, Member m t) :
    Spellable (.obj members) := by
  have spelled : ∀ m ms, (∀ x ∈ m :: ms, ∃ t, Member x t) → ∃ t, Members (m :: ms) t := by
    intro m ms each
    induction ms generalizing m with
    | nil =>
      rcases each m List.mem_cons_self with ⟨t, member⟩
      exact ⟨_, Members.single member blank_nil⟩
    | cons x ms ih =>
      rcases each m List.mem_cons_self with ⟨t, member⟩
      rcases ih x (fun y mem => each y (List.mem_cons_of_mem _ mem)) with ⟨rest, others⟩
      exact ⟨_, Members.cons member blank_nil others⟩
  cases members with
  | nil => exact ⟨_, Spells.objNil blank_nil⟩
  | cons m ms =>
    rcases spelled m ms each with ⟨t, all⟩
    exact ⟨_, Spells.obj all⟩

end Writing

end Rigor.Library.Json
