import Mathlib.Data.List.DropRight
import Rigor.Library.Separated

/-!
# Paths

`std::path` on Unix.  A path is its bytes, whatever their encoding.
-/

namespace Rigor.Rust

open Rigor.Library.Separated

abbrev PathBytes := List UInt8

/-- `/` -/
abbrev slash : UInt8 := 47

/-- `.` -/
abbrev dot : UInt8 := 46

inductive Component where
  | rootDir
  | curDir
  | parentDir
  | normal (name : PathBytes)
  deriving DecidableEq, Repr

/-- A segment behind the root or the first segment; `.` is left out there. -/
def parseSegment (segment : PathBytes) : Option Component :=
  if segment = [] ∨ segment = [dot] then none
  else if segment = [dot, dot] then some .parentDir
  else some (.normal segment)

/-- `Path::components`: a leading `.` of a relative path is one. -/
def components (path : PathBytes) : List Component :=
  match path.splitOn slash with
  | [] :: _ :: _ => .rootDir :: (path.splitOn slash).filterMap parseSegment
  | [46] :: rest => .curDir :: rest.filterMap parseSegment
  | segments => segments.filterMap parseSegment

/-- `Path::is_absolute` -/
def isAbsolute (path : PathBytes) : Bool :=
  path.head? = some slash

/-- `PathBuf::push` -/
def push (buf path : PathBytes) : PathBytes :=
  if isAbsolute path then path
  else if buf.getLast?.any (· ≠ slash) then buf ++ slash :: path
  else buf ++ path

/-- `Path::join` -/
def join (base path : PathBytes) : PathBytes :=
  push base path

/-- What `as_path` leaves out at the end. -/
def skipped (segment : PathBytes) : Bool :=
  segment = [] || segment = [dot]

/-- `PathBuf::pop` of a path with a root, which stays. -/
def pop (buf : PathBytes) : PathBytes :=
  match buf with
  | [] => []
  | root :: body =>
      match (body.splitOn slash).rdropWhile skipped with
      | [] => buf
      | segments => root :: [slash].intercalate (segments.dropLast.rdropWhile skipped)

/-! ## Plain segments -/

/-- A name between separators, other than `.` and `..`. -/
structure Plain (segment : PathBytes) : Prop where
  nonempty : segment ≠ []
  notDot : segment ≠ [dot]
  notDots : segment ≠ [dot, dot]
  noSlash : slash ∉ segment

namespace Plain

variable {segment : PathBytes}

theorem parseSegment (plain : Plain segment) : parseSegment segment = some (.normal segment) := by
  rw [Rust.parseSegment, if_neg (not_or.mpr ⟨plain.nonempty, plain.notDot⟩), if_neg plain.notDots]

theorem not_skipped (plain : Plain segment) : ¬skipped segment = true := by
  rw [skipped, Bool.or_eq_true, decide_eq_true_eq, decide_eq_true_eq]
  exact not_or.mpr ⟨plain.nonempty, plain.notDot⟩

end Plain

theorem plain_of_parseSegment {segment name : PathBytes} (noSlash : slash ∉ segment)
    (parsed : parseSegment segment = some (.normal name)) : Plain name := by
  rw [parseSegment] at parsed
  by_cases trivial : segment = [] ∨ segment = [dot]
  · rw [if_pos trivial] at parsed
    nomatch parsed
  · rw [if_neg trivial] at parsed
    by_cases dots : segment = [dot, dot]
    · rw [if_pos dots] at parsed
      nomatch parsed
    · rw [if_neg dots] at parsed
      cases parsed
      exact ⟨fun empty => trivial (.inl empty), fun single => trivial (.inr single), dots, noSlash⟩

/-- The path of names below the root. -/
def render (names : List PathBytes) : PathBytes :=
  slash :: [slash].intercalate names

theorem splitOn_intercalate_plain {names : List PathBytes} (plain : ∀ name ∈ names, Plain name)
    (nonempty : names ≠ []) : ([slash].intercalate names).splitOn slash = names :=
  List.splitOn_intercalate _ (fun name mem => (plain name mem).noSlash) nonempty

theorem splitOn_render {names : List PathBytes} (plain : ∀ name ∈ names, Plain name)
    (nonempty : names ≠ []) : (render names).splitOn slash = [] :: names := by
  have cut := List.splitOn_append_cons_self (a := slash) [] ([slash].intercalate names)
  rw [splitOn_intercalate_plain plain nonempty] at cut
  exact cut

theorem render_concat (names : List PathBytes) (name : PathBytes) :
    render (names ++ [name]) =
      if names = [] then slash :: name else render names ++ slash :: name := by
  by_cases empty : names = []
  · rw [if_pos empty, empty, List.nil_append, render, List.intercalate_singleton]
  · rw [if_neg empty, render, intercalate_append empty (List.cons_ne_nil _ _),
      List.intercalate_singleton]
    rfl

/-- No name ends in a separator. -/
theorem getLast?_render {names : List PathBytes} (plain : ∀ name ∈ names, Plain name)
    (nonempty : names ≠ []) : (render names).getLast?.any (· ≠ slash) = true := by
  rcases List.eq_nil_or_concat names with rfl | ⟨front, last, rfl⟩
  · exact absurd rfl nonempty
  · rw [List.concat_eq_append] at plain ⊢
    have plainLast := plain last (by simp)
    have ends : ∃ start, render (front ++ [last]) = start ++ last := by
      rw [render_concat]
      split
      · exact ⟨[slash], rfl⟩
      · exact ⟨render front ++ [slash], by simp⟩
    rcases ends with ⟨start, same⟩
    rw [same, List.getLast?_append_of_ne_nil _ plainLast.nonempty,
      List.getLast?_eq_some_getLast plainLast.nonempty, Option.any_some, decide_eq_true_eq]
    intro separator
    exact plainLast.noSlash (separator ▸ List.getLast_mem plainLast.nonempty)

theorem Plain.not_isAbsolute {segment : PathBytes} (plain : Plain segment) :
    ¬isAbsolute segment = true := by
  rw [isAbsolute, decide_eq_true_eq, List.head?_eq_some_iff]
  rintro ⟨rest, rfl⟩
  exact plain.noSlash List.mem_cons_self

theorem push_render {names : List PathBytes} {path : PathBytes}
    (plain : ∀ name ∈ names, Plain name) (relative : ¬isAbsolute path = true) :
    push (render names) path = if names = [] then slash :: path else render names ++ slash :: path := by
  rw [push, if_neg relative]
  by_cases empty : names = []
  · rw [if_pos empty, empty]
    rfl
  · rw [if_neg empty, if_pos (getLast?_render plain empty)]

theorem pop_render {names : List PathBytes} (plain : ∀ name ∈ names, Plain name) :
    pop (render names) = render names.dropLast := by
  rcases List.eq_nil_or_concat names with rfl | ⟨front, last, rfl⟩
  · rfl
  · rw [List.concat_eq_append] at plain ⊢
    have nonempty : front ++ [last] ≠ [] := by simp
    have kept : (front ++ [last]).rdropWhile skipped = front ++ [last] :=
      List.rdropWhile_concat_neg _ _ _ (plain last (by simp)).not_skipped
    have rest : front.rdropWhile skipped = front := by
      rw [List.rdropWhile_eq_self_iff]
      intro inner
      exact (plain _ (List.mem_append_left _ (List.getLast_mem inner))).not_skipped
    simp only [render, pop, splitOn_intercalate_plain plain nonempty, kept]
    rw [List.dropLast_concat, rest]

end Rigor.Rust
