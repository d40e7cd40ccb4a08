import Rigor.Cli.Sidecar.Wire
import Rigor.Library.Delimited
import Rigor.Library.Numerals
import Rigor.Rust.Digits

/-!
# The memo key

A fold is remembered under the `Debug` forms of its parts with unit separators between them.  The forms
tell where they end, so that one key stands for one request.
-/

namespace Rigor.Cli.Sidecar

open Rigor.Library.Delimited Rigor.Library.Numerals Rigor.Rust Rigor.Types

/-- What `{:?}` takes from tables: the characters that are shown as they are, and the floats. -/
structure DebugTables where
  shown : Char → Bool
  float : UInt64 → Text

/-- `\x1f`. -/
def unitSeparator : Char :=
  '\x1f'

/-- A control character is not shown.  A float is digits, a point, an exponent and a sign, or a name, and
its form reads back as the float, unless it is not finite. -/
structure DebugTables.Standard (tables : DebugTables) : Prop where
  control : tables.shown unitSeparator = false
  float_plain : ∀ bits, ')' ∉ tables.float bits ∧ unitSeparator ∉ tables.float bits
  float_value : ∀ bits bits', tables.float bits = tables.float bits' →
    bits = bits' ∨ (F64.isFinite bits = false ∧ F64.isFinite bits' = false)

section Debug

variable (tables : DebugTables)

/-- A character in the `Debug` form of a string. -/
def debugChar (c : Char) : Text :=
  if c = '\x00' then ['\\', '0']
  else if c = '\t' then ['\\', 't']
  else if c = '\r' then ['\\', 'r']
  else if c = '\n' then ['\\', 'n']
  else if c = '\\' then ['\\', '\\']
  else if c = '"' then ['\\', '"']
  else if tables.shown c then [c]
  else ['\\', 'u', '\x7b'] ++ (Nat.toDigits 16 c.toNat ++ ['\x7d'])

def debugStr (s : Text) : Text :=
  '"' :: (s.flatMap (debugChar tables) ++ ['"'])

/-- The decimal form of an integer. -/
def intText (n : Int) : Text :=
  if n < 0 then '-' :: Nat.toDigits 10 n.natAbs else Nat.toDigits 10 n.natAbs

/-- The derived `Debug` of `Scalar`. -/
def debugScalar : Scalar → Text
  | .int i => ['I', 'n', 't', '('] ++ (intText i.toInt ++ [')'])
  | .bigInt d => ['B', 'i', 'g', 'I', 'n', 't', '('] ++ (debugStr tables d ++ [')'])
  | .str s => ['S', 't', 'r', '('] ++ (debugStr tables s ++ [')'])
  | .sym s => ['S', 'y', 'm', '('] ++ (debugStr tables s ++ [')'])
  | .bool true => ['B', 'o', 'o', 'l', '(', 't', 'r', 'u', 'e', ')']
  | .bool false => ['B', 'o', 'o', 'l', '(', 'f', 'a', 'l', 's', 'e', ')']
  | .nil => ['N', 'i', 'l']
  | .float f => ['F', 'l', 'o', 'a', 't', '('] ++ (tables.float f ++ [')'])

/-- The items after the first one. -/
def debugNext (s : Scalar) : Text :=
  [',', ' '] ++ debugScalar tables s

/-- The `Debug` of a slice. -/
def debugSlice : List Scalar → Text
  | [] => ['[', ']']
  | s :: rest => '[' :: (debugScalar tables s ++ (rest.flatMap (debugNext tables) ++ [']']))

/-- The memo key. -/
def key (call : Call) : Text :=
  debugScalar tables call.recv ++ unitSeparator :: (call.method ++ unitSeparator :: debugSlice tables call.args)

end Debug

/-! ## Numbers -/

/-- The digits of `Nat.toDigits`, with an underscore between groups of them. -/
def hexAlphabet : Alphabet Char where
  digit? := toDigit 16
  separator := '_'
  separator_none := by decide

theorem toDigits_ten_injective {m n : Nat} (same : Nat.toDigits 10 m = Nat.toDigits 10 n) : m = n :=
  toDigits_injective hexAlphabet (by decide) (by decide) same

theorem toDigits_sixteen_injective {m n : Nat} (same : Nat.toDigits 16 m = Nat.toDigits 16 n) : m = n :=
  toDigits_injective hexAlphabet (by decide) (by decide) same

theorem not_mem_toDigits {base n : Nat} {c : Char} (two : 1 < base) (none : ∀ d < base, c ≠ d.digitChar) :
    c ∉ Nat.toDigits base n := by
  intro mem
  rcases exists_of_mem_toDigits two mem with ⟨d, below, rfl⟩
  exact none d below rfl

theorem intText_injective {m n : Int} (same : intText m = intText n) : m = n := by
  have noSign (n : Nat) : '-' ∉ Nat.toDigits 10 n := not_mem_toDigits (by decide) (by decide)
  unfold intText at same
  split_ifs at same with negM negN negN
  · have digits := toDigits_ten_injective (List.cons.inj same).2
    omega
  · exact absurd (same ▸ List.mem_cons_self) (noSign n.natAbs)
  · exact absurd (same ▸ List.mem_cons_self) (noSign m.natAbs)
  · have digits := toDigits_ten_injective same
    omega

theorem not_mem_intText {n : Int} {c : Char} (sign : c ≠ '-') (none : ∀ d < 10, c ≠ d.digitChar) :
    c ∉ intText n := by
  unfold intText
  split_ifs
  · rw [List.mem_cons, not_or]
    exact ⟨sign, not_mem_toDigits (by decide) none⟩
  · exact not_mem_toDigits (by decide) none

/-! ## Strings -/

/-- The characters that are written as a backslash and a mark. -/
def marks : List (Char × Char) :=
  [('\x00', '0'), ('\t', 't'), ('\r', 'r'), ('\n', 'n'), ('\\', '\\'), ('"', '"')]

theorem marks_injective : ∀ m ∈ marks, ∀ n ∈ marks, m.2 = n.2 → m.1 = n.1 := by
  decide

theorem marks_ne_u : ∀ m ∈ marks, m.2 ≠ 'u' ∧ m.2 ≠ unitSeparator := by
  decide

section Strings

variable {tables : DebugTables}

/-- The form of a character. -/
theorem debugChar_cases (tables : DebugTables) (c : Char) :
    (∃ mark, (c, mark) ∈ marks ∧ debugChar tables c = ['\\', mark]) ∨
      (c ≠ '\\' ∧ c ≠ '"' ∧ tables.shown c = true ∧ debugChar tables c = [c]) ∨
      debugChar tables c = '\\' :: 'u' :: '\x7b' :: (Nat.toDigits 16 c.toNat ++ ['\x7d']) := by
  unfold debugChar
  split_ifs with nul tab ret feed back quote shown
  · exact Or.inl ⟨'0', by simp [marks, nul], rfl⟩
  · exact Or.inl ⟨'t', by simp [marks, tab], rfl⟩
  · exact Or.inl ⟨'r', by simp [marks, ret], rfl⟩
  · exact Or.inl ⟨'n', by simp [marks, feed], rfl⟩
  · exact Or.inl ⟨'\\', by simp [marks, back], rfl⟩
  · exact Or.inl ⟨'"', by simp [marks, quote], rfl⟩
  · exact Or.inr (Or.inl ⟨back, quote, shown, rfl⟩)
  · exact Or.inr (Or.inr rfl)

theorem debugChar_begins (c : Char) : ∃ x w, debugChar tables c = x :: w ∧ x ≠ '"' := by
  rcases debugChar_cases tables c with ⟨mark, -, form⟩ | ⟨-, quote, -, form⟩ | form
  · exact ⟨_, _, form, by decide⟩
  · exact ⟨_, _, form, quote⟩
  · exact ⟨_, _, form, by decide⟩

theorem debugChar_delimits : Delimits Eq (debugChar tables) := by
  have brace (n : Nat) : '\x7d' ∉ Nat.toDigits 16 n := not_mem_toDigits (by decide) (by decide)
  intro a b r r' same
  suffices equal : a = b by
    rw [equal] at same
    exact ⟨equal, List.append_cancel_left same⟩
  rcases debugChar_cases tables a with ⟨m, inM, formA⟩ | ⟨backA, -, -, formA⟩ | formA <;>
    rcases debugChar_cases tables b with ⟨n, inN, formB⟩ | ⟨backB, -, -, formB⟩ | formB <;>
    rw [formA, formB] at same
  · exact marks_injective _ inM _ inN (List.cons.inj (List.cons.inj same).2).1
  · exact absurd (List.cons.inj same).1.symm backB
  · exact absurd (List.cons.inj (List.cons.inj same).2).1 (marks_ne_u _ inM).1
  · exact absurd (List.cons.inj same).1 backA
  · exact (List.cons.inj same).1
  · exact absurd (List.cons.inj same).1 backA
  · exact absurd (List.cons.inj (List.cons.inj same).2).1.symm (marks_ne_u _ inN).1
  · exact absurd (List.cons.inj same).1.symm backB
  · have digits : Nat.toDigits 16 a.toNat ++ '\x7d' :: r = Nat.toDigits 16 b.toNat ++ '\x7d' :: r' := by
      simpa using same
    exact Char.toNat_inj.mp (toDigits_sixteen_injective (eq_of_append_stop (brace _) (brace _) digits).1)

theorem debugStr_delimits : Delimits Eq (debugStr tables) := by
  intro a b r r' same
  have body : a.flatMap (debugChar tables) ++ '"' :: r = b.flatMap (debugChar tables) ++ '"' :: r' := by
    simpa [debugStr] using same
  rcases debugChar_delimits.flatMap debugChar_begins body with ⟨along, after⟩
  rw [List.forall₂_eq_eq_eq] at along
  exact ⟨along, after⟩

theorem unitSeparator_not_mem_debugStr (standard : tables.Standard) (s : Text) :
    unitSeparator ∉ debugStr tables s := by
  intro mem
  rcases List.mem_cons.mp mem with quote | mem
  · cases quote
  rcases List.mem_append.mp mem with body | quote
  · rcases List.mem_flatMap.mp body with ⟨c, -, inForm⟩
    rcases debugChar_cases tables c with ⟨mark, inMarks, form⟩ | ⟨-, -, shown, form⟩ | form
    · rw [form, List.mem_cons, List.mem_singleton] at inForm
      rcases inForm with back | same
      · cases back
      · exact (marks_ne_u _ inMarks).2 same.symm
    · rw [form, List.mem_singleton] at inForm
      rw [← inForm, standard.control] at shown
      cases shown
    · have digits : unitSeparator ∉ Nat.toDigits 16 c.toNat := not_mem_toDigits (by decide) (by decide)
      rw [form] at inForm
      simp [unitSeparator] at inForm digits
      exact digits inForm
  · rw [List.mem_singleton] at quote
    cases quote

end Strings

/-! ## Scalars -/

/-- The same scalar, or two floats that are not finite. -/
def Alike (a b : Scalar) : Prop :=
  a = b ∨ ∃ f g, a = .float f ∧ b = .float g ∧ F64.isFinite f = false ∧ F64.isFinite g = false

theorem Alike.scalarToJson_eq {a b : Scalar} (alike : Alike a b) : scalarToJson a = scalarToJson b := by
  rcases alike with rfl | ⟨f, g, rfl, rfl, infinite, infinite'⟩
  · rfl
  · simp [scalarToJson, infinite, infinite']

section Scalars

variable {tables : DebugTables}

/-- The form of a scalar shows which scalar it is, and where it ends. -/
theorem debugScalar_delimits (standard : tables.Standard) : Delimits Alike (debugScalar tables) := by
  intro a b r r' same
  have noStop (n : Int) : ')' ∉ intText n := not_mem_intText (by decide) (by decide)
  cases a with
  | int i =>
      cases b with
      | int j =>
          have body : intText i.toInt ++ ')' :: r = intText j.toInt ++ ')' :: r' := by
            simpa [debugScalar] using same
          rcases eq_of_append_stop (noStop _) (noStop _) body with ⟨digits, rest⟩
          exact ⟨Or.inl (congrArg Scalar.int (Int64.toInt_inj.mp (intText_injective digits))), rest⟩
      | bool b => cases b <;> simp [debugScalar] at same
      | _ => simp [debugScalar] at same
  | bigInt d =>
      cases b with
      | bigInt e =>
          have body : debugStr tables d ++ ')' :: r = debugStr tables e ++ ')' :: r' := by
            simpa [debugScalar] using same
          rcases debugStr_delimits _ _ _ _ body with ⟨rfl, rest⟩
          exact ⟨Or.inl rfl, (List.cons.inj rest).2⟩
      | bool b => cases b <;> simp [debugScalar] at same
      | _ => simp [debugScalar] at same
  | str s =>
      cases b with
      | str t =>
          have body : debugStr tables s ++ ')' :: r = debugStr tables t ++ ')' :: r' := by
            simpa [debugScalar] using same
          rcases debugStr_delimits _ _ _ _ body with ⟨rfl, rest⟩
          exact ⟨Or.inl rfl, (List.cons.inj rest).2⟩
      | bool b => cases b <;> simp [debugScalar] at same
      | _ => simp [debugScalar] at same
  | sym s =>
      cases b with
      | sym t =>
          have body : debugStr tables s ++ ')' :: r = debugStr tables t ++ ')' :: r' := by
            simpa [debugScalar] using same
          rcases debugStr_delimits _ _ _ _ body with ⟨rfl, rest⟩
          exact ⟨Or.inl rfl, (List.cons.inj rest).2⟩
      | bool b => cases b <;> simp [debugScalar] at same
      | _ => simp [debugScalar] at same
  | bool a =>
      cases a <;> cases b with
      | bool b => cases b <;> simp_all [debugScalar, Alike]
      | _ => simp [debugScalar] at same
  | nil =>
      cases b with
      | nil => exact ⟨Or.inl rfl, List.append_cancel_left same⟩
      | bool b => cases b <;> simp [debugScalar] at same
      | _ => simp [debugScalar] at same
  | float f =>
      cases b with
      | float g =>
          have body : tables.float f ++ ')' :: r = tables.float g ++ ')' :: r' := by
            simpa [debugScalar] using same
          rcases eq_of_append_stop (standard.float_plain f).1 (standard.float_plain g).1 body with ⟨text, rest⟩
          rcases standard.float_value f g text with rfl | ⟨infinite, infinite'⟩
          · exact ⟨Or.inl rfl, rest⟩
          · exact ⟨Or.inr ⟨f, g, rfl, rfl, infinite, infinite'⟩, rest⟩
      | bool b => cases b <;> simp [debugScalar] at same
      | _ => simp [debugScalar] at same

theorem unitSeparator_not_mem_debugScalar (standard : tables.Standard) (s : Scalar) :
    unitSeparator ∉ debugScalar tables s := by
  have string (front s : Text) (plain : unitSeparator ∉ front) :
      unitSeparator ∉ front ++ (debugStr tables s ++ [')']) := by
    simp only [List.mem_append, not_or]
    exact ⟨plain, unitSeparator_not_mem_debugStr standard s, by decide⟩
  cases s with
  | int i =>
      have digits : unitSeparator ∉ intText i.toInt := not_mem_intText (by decide) (by decide)
      simp only [debugScalar, List.mem_append, not_or]
      exact ⟨by decide, digits, by decide⟩
  | bigInt d => exact string _ d (by decide)
  | str s => exact string _ s (by decide)
  | sym s => exact string _ s (by decide)
  | bool b => cases b <;> simp [debugScalar, unitSeparator]
  | nil => simp [debugScalar, unitSeparator]
  | float f =>
      simp only [debugScalar, List.mem_append, not_or]
      exact ⟨by decide, (standard.float_plain f).2, by decide⟩

theorem debugSlice_injective (standard : tables.Standard) {xs ys : List Scalar}
    (same : debugSlice tables xs = debugSlice tables ys) : List.Forall₂ Alike xs ys := by
  have noBracket (s : Scalar) (r r' : Text) : ']' :: r ≠ debugScalar tables s ++ r' := by
    cases s with
    | bool b => cases b <;> simp [debugScalar]
    | _ => simp [debugScalar]
  cases xs with
  | nil =>
      cases ys with
      | nil => exact .nil
      | cons y ys => exact absurd (List.cons.inj same).2 (noBracket y _ _)
  | cons x xs =>
      cases ys with
      | nil => exact absurd (List.cons.inj same).2.symm (noBracket x _ _)
      | cons y ys =>
          rcases debugScalar_delimits standard _ _ _ _ (List.cons.inj same).2 with ⟨alike, rest⟩
          have next := (debugScalar_delimits standard).prepend [',', ' ']
          exact .cons alike (next.flatMap (fun _ => ⟨',', _, rfl, by decide⟩) rest).1

/-- One key stands for one request. -/
theorem request_eq_of_key_eq (standard : tables.Standard) {call call' : Call}
    (plain : unitSeparator ∉ call.method) (plain' : unitSeparator ∉ call'.method)
    (same : key tables call = key tables call') : request call = request call' := by
  rcases eq_of_append_stop (unitSeparator_not_mem_debugScalar standard call.recv)
    (unitSeparator_not_mem_debugScalar standard call'.recv) same with ⟨recv, rest⟩
  rcases eq_of_append_stop plain plain' rest with ⟨method, slices⟩
  have receivers : Alike call.recv call'.recv :=
    (debugScalar_delimits standard _ _ _ _ (congrArg (· ++ []) recv)).1
  have arguments : call.args.map scalarToJson = call'.args.map scalarToJson := by
    rw [← List.forall₂_eq_eq_eq, List.forall₂_map_left_iff, List.forall₂_map_right_iff]
    exact (debugSlice_injective standard slices).imp fun _ _ alike => alike.scalarToJson_eq
  rw [request, request, receivers.scalarToJson_eq, method, arguments]

end Scalars

end Rigor.Cli.Sidecar
