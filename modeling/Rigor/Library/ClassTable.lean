import Mathlib.Data.List.Induction
import Rigor.Library.Grouping

/-!
# Classes and constants

The classes and modules of an object-oriented program with nested constants, as in Ruby.  A constant
is looked up in the enclosing scopes, then in the ancestors of the innermost one, then at the top
level; the rest of a constant path is looked up in what its head denotes.
-/

namespace Rigor.Library

universe u

/-- A class or a module is known by its path from the top level. -/
structure ClassTable (Name : Type u) where
  defined : List Name → Bool
  isModule : List Name → Bool
  /-- With the class itself. -/
  ancestors : List Name → List (List Name)
  self_mem (c : List Name) : c ∈ ancestors c
  trans {c d e : List Name} : d ∈ ancestors c → e ∈ ancestors d → e ∈ ancestors c
  /-- A nested class needs the class around it. -/
  defined_scope {path : List Name} {n : Name} :
    defined (path ++ [n]) = true → path ≠ [] → defined path = true

namespace ClassTable

variable {Name : Type u} (table : ClassTable Name)

/-- A constant of the class itself. -/
def lookupOwn (scope : List Name) (n : Name) : Option (List Name) :=
  if table.defined (scope ++ [n]) then some (scope ++ [n]) else none

/-- A constant of the class or of one of its ancestors. -/
def lookupIn (scope : List Name) (n : Name) : Option (List Name) :=
  (table.ancestors scope).findSome? fun ancestor => table.lookupOwn ancestor n

/-- The scopes are given innermost first. -/
def lookupLexical (nest : List (List Name)) (n : Name) : Option (List Name) :=
  nest.findSome? fun scope => table.lookupOwn scope n

def lookupHead (nest : List (List Name)) (n : Name) : Option (List Name) :=
  ((table.lookupLexical nest n).or (nest.head?.bind fun scope => table.lookupIn scope n)).or
    (table.lookupOwn [] n)

def resolve (nest : List (List Name)) : List Name → Option (List Name)
  | [] => none
  | n :: rest => (table.lookupHead nest n).bind fun found => rest.foldlM table.lookupIn found

/-- The same rule without the ancestors. -/
def resolveDirect (nest : List (List Name)) : List Name → Option (List Name)
  | [] => none
  | n :: rest =>
      ((table.lookupLexical nest n).or (table.lookupOwn [] n)).bind fun found =>
        rest.foldlM table.lookupOwn found

/-- A class header as it is written. -/
structure Header (Name : Type u) where
  path : List Name
  /-- Written with a leading `::`. -/
  rooted : Bool

/-- The class a header opens.  All but the last name of its path are looked up. -/
def opens (nest : List (List Name)) (header : Header Name) : Option (List Name) :=
  match header.path with
  | [] => none
  | [n] => some (if header.rooted then [n] else nest.headD [] ++ [n])
  | n :: m :: rest =>
      (table.resolve (if header.rooted then [] else nest) (n :: (m :: rest).dropLast)).map
        (· ++ [(m :: rest).getLast (List.cons_ne_nil m rest)])

/-- The scopes inside the headers, innermost first.  The headers are given outermost first. -/
def nesting (headers : List (Header Name)) : Option (List (List Name)) :=
  headers.foldlM (fun nest header => (table.opens nest header).map (· :: nest)) []

variable {table}

theorem lookupOwn_eq_some_iff {scope found : List Name} {n : Name} :
    table.lookupOwn scope n = some found ↔
      found = scope ++ [n] ∧ table.defined (scope ++ [n]) = true := by
  unfold lookupOwn
  split
  case isTrue defined => simp [defined, eq_comm]
  case isFalse undefined => simp [undefined]

theorem lookupOwn_eq_none_iff {scope : List Name} {n : Name} :
    table.lookupOwn scope n = none ↔ table.defined (scope ++ [n]) = false := by
  simp [lookupOwn]

/-- What encloses a defined class is defined. -/
theorem defined_of_append {scope rest : List Name}
    (defined : table.defined (scope ++ rest) = true) (nonempty : scope ≠ []) :
    table.defined scope = true := by
  induction rest using List.reverseRecOn with
  | nil => simpa using defined
  | append_singleton rest n inductionHypothesis =>
      apply inductionHypothesis
      rw [← List.append_assoc] at defined
      exact table.defined_scope defined (by simp [nonempty])

theorem foldlM_lookupOwn {rest scope found : List Name}
    (ran : rest.foldlM table.lookupOwn scope = some found)
    (defined : table.defined scope = true) :
    found = scope ++ rest ∧ table.defined found = true := by
  induction rest generalizing scope with
  | nil =>
      obtain rfl : scope = found := by simpa using ran
      exact ⟨by simp, defined⟩
  | cons n rest inductionHypothesis =>
      rw [List.foldlM_cons] at ran
      obtain ⟨next, own, ranRest⟩ := Option.bind_eq_some_iff.mp ran
      obtain ⟨rfl, definedNext⟩ := lookupOwn_eq_some_iff.mp own
      obtain ⟨same, definedFound⟩ := inductionHypothesis ranRest definedNext
      exact ⟨by simpa using same, definedFound⟩

/-- The candidates of a path: the path inside each scope, innermost first. -/
def candidates (nest : List (List Name)) (path : List Name) : List (List Name) :=
  nest.map (· ++ path)

/-- No candidate of a path is defined when its head is not. -/
theorem find?_candidates_eq_none {scopes : List (List Name)} {n : Name} {rest : List Name}
    (missing : ∀ scope ∈ scopes, table.lookupOwn scope n = none) :
    (candidates scopes (n :: rest)).find? table.defined = none := by
  rw [List.find?_eq_none]
  intro candidate member
  obtain ⟨scope, memberScopes, rfl⟩ := List.mem_map.mp member
  intro defined
  have undefinedHead := lookupOwn_eq_none_iff.mp (missing scope memberScopes)
  rw [List.append_cons] at defined
  rw [defined_of_append defined (by simp)] at undefinedHead
  exact Bool.noConfusion undefinedHead

/-- Without the ancestors, a path denotes the first candidate that is defined, and at the top level
the path itself. -/
theorem candidate_of_resolveDirect {nest : List (List Name)} {path found : List Name}
    (resolved : table.resolveDirect nest path = some found) :
    ((candidates nest path).find? table.defined).getD path = found ∧
      table.defined found = true := by
  cases path with
  | nil => simp [resolveDirect] at resolved
  | cons n rest =>
      obtain ⟨head, lookup, ran⟩ := Option.bind_eq_some_iff.mp resolved
      rcases Option.or_eq_some_iff.mp lookup with lexical | ⟨missing, own⟩
      · obtain ⟨inner, scope, outer, rfl, own, before⟩ := List.findSome?_eq_some_iff.mp lexical
        obtain ⟨rfl, definedHead⟩ := lookupOwn_eq_some_iff.mp own
        obtain ⟨rfl, definedFound⟩ := foldlM_lookupOwn ran definedHead
        refine ⟨?_, definedFound⟩
        have skipped : (candidates inner (n :: rest)).find? table.defined = none :=
          find?_candidates_eq_none before
        have definedHere : table.defined (scope ++ n :: rest) = true := by
          simpa using definedFound
        simp only [candidates, List.map_append, List.map_cons] at skipped ⊢
        rw [List.find?_append, skipped]
        simp [definedHere]
      · obtain ⟨rfl, definedHead⟩ := lookupOwn_eq_some_iff.mp own
        obtain ⟨rfl, definedFound⟩ := foldlM_lookupOwn ran definedHead
        refine ⟨?_, definedFound⟩
        rw [find?_candidates_eq_none (List.findSome?_eq_none_iff.mp missing)]
        simp

/-! ## Tables from lists -/

section Lists

variable [BEq Name] [LawfulBEq Name]

/-- The proper ancestors of a class, by its line. -/
def ancestorsIn (lines : List (List Name × List (List Name))) (c : List Name) : List (List Name) :=
  (lines.lookup c).getD []

/-- The table of the listed classes and modules. -/
def ofLines (classes modules : List (List Name)) (lines : List (List Name × List (List Name)))
    (closed : ∀ line ∈ lines, ∀ d ∈ line.2, ancestorsIn lines d ⊆ line.2)
    (nested : ∀ c ∈ classes, c.dropLast = [] ∨ c.dropLast ∈ classes) : ClassTable Name where
  defined c := classes.contains c
  isModule c := modules.contains c
  ancestors c := c :: ancestorsIn lines c
  self_mem c := List.mem_cons_self
  trans {c d e} below above := by
    rcases List.mem_cons.mp below with rfl | below
    · exact above
    · rcases List.mem_cons.mp above with rfl | above
      · exact List.mem_cons_of_mem c below
      · unfold ancestorsIn at below
        cases line : lines.lookup c with
        | none => simp [line] at below
        | some ancestors =>
            simp only [line, Option.getD_some] at below
            have inLine := closed _ (Grouping.mem_of_lookup line) d below above
            exact List.mem_cons_of_mem c (by simpa [ancestorsIn, line] using inLine)
  defined_scope {path n} defined nonempty := by
    have member := nested _ (List.contains_iff_mem.mp defined)
    rw [List.dropLast_concat] at member
    exact List.contains_iff_mem.mpr (member.resolve_left nonempty)

end Lists

end ClassTable

end Rigor.Library
