import Mathlib.Data.List.Induction
import Rigor.Types.Ty

/-!
# The constants of one file

The lowered tree of a file as the constant harvest sees it, the literals that the harvest reads off
right-hand sides, and the harvest itself.  Next to it stands what the file does as a Ruby program:
every constant that it assigns or declares, wherever the statement stands.

A qualified name is the list of its segments.  A name written in a class or module body is
qualified by the headers around it, as `qualify` and `lexical_scopes` do.
-/

namespace Rigor.Infer.Source

open Rigor.Types (Scalar ShapeKey)

/-- The segments of a constant path. -/
abbrev Path :=
  List Text

/-- Lowered nodes.  A header that names no constant has the empty path; `class << self` is one.
A node with no form of its own is `other`: it keeps the constants that it assigns by itself, in an
operator, path or multiple assignment, and the nodes below it. -/
inductive Node where
  | statements (body : List Node)
  | classDef (name : Path) (body : List Node)
  | moduleDef (name : Path) (body : List Node)
  | constantWrite (name : Text) (value : Node)
  | integerLit (value : Option Int64)
  | floatLit (bits : UInt64)
  | stringLit (value : Text)
  | symbolLit (value : Text)
  | trueLit
  | falseLit
  | nilLit
  | arrayLit (elements : List Node)
  | hashLit (elements : List Node) (allAssoc : Bool)
  | range (bounds : List Node)
  | call (receiver : Node) (method : Text) (args : List Node) (blockBody : List Node)
  | other (assigned : List Path) (children : List Node)

/-! ## Literals -/

/-- `ConstLit`, the value of a literal right-hand side. -/
inductive ConstLit where
  | scalar (value : Scalar)
  | tuple (elements : List ConstLit)
  | hash (members : List (ShapeKey × ConstLit))
  | range
  | bareArray
  | bareHash
  | widened (seed : ConstLit)

/-- The literal under the wrapper that marks a mutated constant. -/
def ConstLit.seed : ConstLit → ConstLit
  | .widened seed => seed
  | lit => lit

/-- The static key that a hash key denotes. -/
def constShapeKeyOf : Node → Option ShapeKey
  | .symbolLit value => some (.sym value)
  | .stringLit value => some (.str value)
  | .integerLit value => value.map .int
  | .floatLit bits => some (.float bits)
  | .trueLit => some (.bool true)
  | .falseLit => some (.bool false)
  | .nilLit => some .nil
  | _ => none

/-- The last value written for a key replaces the earlier one in its place. -/
def replaceOrPush (key : ShapeKey) (value : ConstLit) :
    List (ShapeKey × ConstLit) → List (ShapeKey × ConstLit)
  | [] => [(key, value)]
  | member :: rest =>
      if member.1 = key then (key, value) :: rest else member :: replaceOrPush key value rest

mutual

/-- The literal that a right-hand side spells. -/
def constLitOf : Node → Option ConstLit
  | .integerLit value => value.map fun value => .scalar (.int value)
  | .floatLit bits => some (.scalar (.float bits))
  | .stringLit value => some (.scalar (.str value))
  | .symbolLit value => some (.scalar (.sym value))
  | .trueLit => some (.scalar (.bool true))
  | .falseLit => some (.scalar (.bool false))
  | .nilLit => some (.scalar .nil)
  | .arrayLit elements =>
      match constLitsOf elements with
      | some lits => some (.tuple lits)
      | none => some .bareArray
  | .hashLit elements allAssoc =>
      if allAssoc then
        match constMembersOf [] elements with
        | some members => some (.hash members)
        | none => some .bareHash
      else some .bareHash
  | .range _ => some .range
  | .call receiver method args blockBody =>
      if method = "freeze".toList ∧ args.isEmpty ∧ blockBody.isEmpty then constLitOf receiver
      else none
  | _ => none

def constLitsOf : List Node → Option (List ConstLit)
  | [] => some []
  | element :: rest =>
      match constLitOf element with
      | none => none
      | some lit => (constLitsOf rest).map (lit :: ·)

/-- The members of a hash literal, over its keys and values in turn. -/
def constMembersOf (members : List (ShapeKey × ConstLit)) :
    List Node → Option (List (ShapeKey × ConstLit))
  | key :: value :: rest =>
      match constShapeKeyOf key, constLitOf value with
      | some key, some lit => constMembersOf (replaceOrPush key lit members) rest
      | _, _ => none
  | _ => some members

end

/-- Whether the right-hand side seeds an empty container that is filled elsewhere: such a
constant is recorded without a literal. -/
def emptySeed : Node → Bool
  | .stringLit value => value.isEmpty
  | .arrayLit elements => elements.isEmpty
  | .hashLit elements _ => elements.isEmpty
  | _ => false

/-! ## The mutation census -/

def arrayMutators : List Text :=
  ["<<", "push", "append", "prepend", "unshift", "concat", "insert", "pop", "shift", "delete",
    "delete_at", "delete_if", "reject!", "clear", "compact!", "replace", "fill", "[]=", "map!",
    "collect!", "select!", "filter!", "keep_if", "uniq!", "flatten!", "sort!", "sort_by!",
    "reverse!", "rotate!", "shuffle!", "slice!"].map String.toList

def hashMutators : List Text :=
  ["[]=", "store", "shift", "delete", "delete_if", "reject!", "select!", "filter!", "keep_if",
    "clear", "compact!", "merge!", "update", "transform_keys!", "transform_values!",
    "replace"].map String.toList

def hashLookupMutators : List Text :=
  ["default=", "default_proc=", "compare_by_identity"].map String.toList

def stringMutators : List Text :=
  ["<<", "concat", "insert", "prepend", "replace", "clear", "[]=", "slice!", "setbyte",
    "bytesplice", "append_as_bytes", "force_encoding", "sub!", "gsub!", "tr!", "tr_s!",
    "delete!", "squeeze!", "succ!", "next!", "upcase!", "downcase!", "capitalize!", "swapcase!",
    "reverse!", "strip!", "lstrip!", "rstrip!", "chomp!", "chop!", "delete_prefix!",
    "delete_suffix!", "encode!", "scrub!", "unicode_normalize!", "bit_set", "bit_clear",
    "bit_flip", "bitwise_not!", "bitwise_and!", "bitwise_or!", "bitwise_xor!"].map String.toList

def isShapeMutator (method : Text) : Bool :=
  arrayMutators.contains method || hashMutators.contains method ||
    hashLookupMutators.contains method || stringMutators.contains method

/-- A site where a constant receiver is mutated, under the headers around it; an index or attribute
assignment has no method. -/
structure ConstMutation where
  headers : List Path
  receiver : Path
  receiverIsPath : Bool
  method : Option Text

/-- The qualified names that the site may mutate. -/
def ConstMutation.names (mutation : ConstMutation) : List Path :=
  if (mutation.method.map isShapeMutator).getD true = false ∨ mutation.receiver = [] then []
  else if mutation.receiverIsPath then [mutation.receiver]
  else (List.range (mutation.headers.length + 1)).map fun keep =>
    (mutation.headers.take (mutation.headers.length - keep)).flatten ++ mutation.receiver

def mutatedConstantNames (mutations : List ConstMutation) : List Path :=
  mutations.flatMap ConstMutation.names

def widenIfMutated (qualified : Path) (lit : ConstLit) (mutated : List Path) : ConstLit :=
  if mutated.contains qualified then .widened lit else lit

/-! ## The harvest -/

structure HarvestedConstWrite where
  qualified : Path
  home : Path
  lit : Option ConstLit
  writes : Nat

/-- What the first write of a qualified name records. -/
def harvestedLit (mutated : List Path) (qualified : Path) (value : Node) : Option ConstLit :=
  (if emptySeed value then none else constLitOf value).map (widenIfMutated qualified · mutated)

/-- A repeated write of a qualified name counts, the first one is recorded. -/
def recordWrite (mutated : List Path) (scope : Path) (name : Text) (value : Node)
    (out : List HarvestedConstWrite) : List HarvestedConstWrite :=
  if out.any (·.qualified == scope ++ [name]) then
    out.map fun entry =>
      if entry.qualified = scope ++ [name] then { entry with writes := entry.writes + 1 } else entry
  else
    out ++ [⟨scope ++ [name], scope, harvestedLit mutated (scope ++ [name]) value, 1⟩]

mutual

/-- Walks the program, class and module bodies, and nothing else. -/
def collectLiteralConstants (mutated : List Path) (scope : Path) (out : List HarvestedConstWrite) :
    Node → List HarvestedConstWrite
  | .statements body => collectLiteralConstantsAll mutated scope out body
  | .classDef name body =>
      if name = [] then out else collectLiteralConstantsAll mutated (scope ++ name) out body
  | .moduleDef name body =>
      if name = [] then out else collectLiteralConstantsAll mutated (scope ++ name) out body
  | .constantWrite name value => recordWrite mutated scope name value out
  | _ => out

def collectLiteralConstantsAll (mutated : List Path) (scope : Path)
    (out : List HarvestedConstWrite) : List Node → List HarvestedConstWrite
  | [] => out
  | node :: rest =>
      collectLiteralConstantsAll mutated scope (collectLiteralConstants mutated scope out node) rest

end

mutual

/-- The qualified names that the override walk records, over the same bodies. -/
def overrideClassNames (scope : Path) : Node → List Path
  | .statements body => overrideClassNamesAll scope body
  | .classDef name body =>
      if name = [] then [] else (scope ++ name) :: overrideClassNamesAll (scope ++ name) body
  | .moduleDef name body =>
      if name = [] then [] else (scope ++ name) :: overrideClassNamesAll (scope ++ name) body
  | _ => []

def overrideClassNamesAll (scope : Path) : List Node → List Path
  | [] => []
  | node :: rest => overrideClassNames scope node ++ overrideClassNamesAll scope rest

end

mutual

/-- The names of all class and module headers of the file, as written. -/
def sourceClassNames : Node → List Path
  | .statements body => sourceClassNamesAll body
  | .classDef name body => (if name = [] then [] else [name]) ++ sourceClassNamesAll body
  | .moduleDef name body => (if name = [] then [] else [name]) ++ sourceClassNamesAll body
  | .constantWrite _ value => sourceClassNames value
  | .arrayLit elements => sourceClassNamesAll elements
  | .hashLit elements _ => sourceClassNamesAll elements
  | .range bounds => sourceClassNamesAll bounds
  | .call receiver _ args blockBody =>
      sourceClassNames receiver ++ sourceClassNamesAll args ++ sourceClassNamesAll blockBody
  | .other _ children => sourceClassNamesAll children
  | _ => []

def sourceClassNamesAll : List Node → List Path
  | [] => []
  | node :: rest => sourceClassNames node ++ sourceClassNamesAll rest

end

/-! ## What the program does -/

/-- A constant that a statement assigns, with the right-hand side of a plain assignment, or one
that a header declares. -/
inductive ConstFact where
  | assigned (qualified : Path) (value : Option Node)
  | declared (qualified : Path)

namespace ConstFact

def qualified : ConstFact → Path
  | .assigned qualified _ => qualified
  | .declared qualified => qualified

def assigns (qualified : Path) : ConstFact → Bool
  | .assigned other _ => other == qualified
  | .declared _ => false

end ConstFact

mutual

/-- Everything that the node assigns or declares.  A body whose header names no constant is in no
scope that a name reaches. -/
def constFacts (scope : Path) : Node → List ConstFact
  | .statements body => constFactsAll scope body
  | .classDef name body =>
      if name = [] then [] else .declared (scope ++ name) :: constFactsAll (scope ++ name) body
  | .moduleDef name body =>
      if name = [] then [] else .declared (scope ++ name) :: constFactsAll (scope ++ name) body
  | .constantWrite name value =>
      .assigned (scope ++ [name]) (some value) :: constFacts scope value
  | .arrayLit elements => constFactsAll scope elements
  | .hashLit elements _ => constFactsAll scope elements
  | .range bounds => constFactsAll scope bounds
  | .call receiver _ args blockBody =>
      constFacts scope receiver ++ constFactsAll scope args ++ constFactsAll scope blockBody
  | .other assigned children =>
      assigned.map (fun path => .assigned (scope ++ path) none) ++ constFactsAll scope children
  | _ => []

def constFactsAll (scope : Path) : List Node → List ConstFact
  | [] => []
  | node :: rest => constFacts scope node ++ constFactsAll scope rest

end

mutual

/-- The assignments that the harvest walk meets: the scope, the name and the right-hand side. -/
def walkedWrites (scope : Path) : Node → List (Path × Text × Node)
  | .statements body => walkedWritesAll scope body
  | .classDef name body => if name = [] then [] else walkedWritesAll (scope ++ name) body
  | .moduleDef name body => if name = [] then [] else walkedWritesAll (scope ++ name) body
  | .constantWrite name value => [(scope, name, value)]
  | _ => []

def walkedWritesAll (scope : Path) : List Node → List (Path × Text × Node)
  | [] => []
  | node :: rest => walkedWrites scope node ++ walkedWritesAll scope rest

end

/-- The fact that an assignment met by the walk is. -/
def writeFact (write : Path × Text × Node) : ConstFact :=
  .assigned (write.1 ++ [write.2.1]) (some write.2.2)

/-! ## The harvest against the program -/

/-- Recording one assignment met by the walk. -/
def recordStep (mutated : List Path) (out : List HarvestedConstWrite)
    (write : Path × Text × Node) : List HarvestedConstWrite :=
  recordWrite mutated write.1 write.2.1 write.2.2 out

mutual

theorem collectLiteralConstants_eq (mutated : List Path) (scope : Path)
    (out : List HarvestedConstWrite) (node : Node) :
    collectLiteralConstants mutated scope out node =
      (walkedWrites scope node).foldl (recordStep mutated) out := by
  match node with
  | .statements body => exact collectLiteralConstantsAll_eq mutated scope out body
  | .classDef name body =>
      rw [collectLiteralConstants, walkedWrites]
      split
      · rfl
      · exact collectLiteralConstantsAll_eq mutated (scope ++ name) out body
  | .moduleDef name body =>
      rw [collectLiteralConstants, walkedWrites]
      split
      · rfl
      · exact collectLiteralConstantsAll_eq mutated (scope ++ name) out body
  | .constantWrite name value => rfl
  | .integerLit _ | .floatLit _ | .stringLit _ | .symbolLit _ | .trueLit | .falseLit | .nilLit
  | .arrayLit _ | .hashLit _ _ | .range _ | .call _ _ _ _ | .other _ _ => rfl

theorem collectLiteralConstantsAll_eq (mutated : List Path) (scope : Path)
    (out : List HarvestedConstWrite) (nodes : List Node) :
    collectLiteralConstantsAll mutated scope out nodes =
      (walkedWritesAll scope nodes).foldl (recordStep mutated) out := by
  match nodes with
  | [] => rfl
  | node :: rest =>
      rw [collectLiteralConstantsAll, walkedWritesAll, List.foldl_append,
        ← collectLiteralConstants_eq mutated scope out node]
      exact collectLiteralConstantsAll_eq mutated scope _ rest

end

mutual

/-- The walk meets assignments of the program, each once. -/
theorem writeFact_walkedWrites_sublist (scope : Path) (node : Node) :
    ((walkedWrites scope node).map writeFact).Sublist (constFacts scope node) := by
  match node with
  | .statements body => exact writeFact_walkedWritesAll_sublist scope body
  | .classDef name body =>
      rw [walkedWrites, constFacts]
      split
      · exact List.Sublist.refl _
      · exact (writeFact_walkedWritesAll_sublist (scope ++ name) body).cons _
  | .moduleDef name body =>
      rw [walkedWrites, constFacts]
      split
      · exact List.Sublist.refl _
      · exact (writeFact_walkedWritesAll_sublist (scope ++ name) body).cons _
  | .constantWrite name value =>
      rw [walkedWrites, constFacts]
      exact (List.nil_sublist _).cons_cons _
  | .integerLit _ | .floatLit _ | .stringLit _ | .symbolLit _ | .trueLit | .falseLit | .nilLit
  | .arrayLit _ | .hashLit _ _ | .range _ | .call _ _ _ _ | .other _ _ =>
      exact List.nil_sublist _

theorem writeFact_walkedWritesAll_sublist (scope : Path) (nodes : List Node) :
    ((walkedWritesAll scope nodes).map writeFact).Sublist (constFactsAll scope nodes) := by
  match nodes with
  | [] => exact List.Sublist.refl _
  | node :: rest =>
      rw [walkedWritesAll, constFactsAll, List.map_append]
      exact (writeFact_walkedWrites_sublist scope node).append
        (writeFact_walkedWritesAll_sublist scope rest)

end

/-- The one entry that a file records for the assignments of a qualified name. -/
def entryOf (mutated : List Path) (qualified : Path) :
    List (Path × Text × Node) → List HarvestedConstWrite
  | [] => []
  | write :: rest =>
      [⟨qualified, write.1, harvestedLit mutated qualified write.2.2, rest.length + 1⟩]

def qualifiedOf (write : Path × Text × Node) : Path :=
  write.1 ++ [write.2.1]

theorem entryOf_append_singleton (mutated : List Path) (qualified : Path)
    (writes : List (Path × Text × Node)) (last : Path × Text × Node) :
    entryOf mutated qualified (writes ++ [last]) =
      if writes = [] then entryOf mutated qualified [last]
      else (entryOf mutated qualified writes).map fun entry =>
        { entry with writes := entry.writes + 1 } := by
  cases writes with
  | nil => rfl
  | cons first rest => simp [entryOf]

/-- Counting a write changes the entries of its own name. -/
theorem filter_map_count (out : List HarvestedConstWrite) (target qualified : Path) :
    (out.map fun entry =>
        if entry.qualified = target then { entry with writes := entry.writes + 1 } else entry).filter
        (·.qualified == qualified) =
      if target = qualified then
        (out.filter (·.qualified == qualified)).map fun entry =>
          { entry with writes := entry.writes + 1 }
      else out.filter (·.qualified == qualified) := by
  induction out with
  | nil => simp
  | cons entry rest ih =>
      rw [List.map_cons, List.filter_cons, List.filter_cons, ih]
      by_cases own : entry.qualified = target
      · by_cases same : target = qualified
        · simp [own, same]
        · simp [own, same]
      · by_cases same : target = qualified
        · rw [same] at own
          simp [own, same]
        · simp [own, same]

/-- One record keeps the entries of the other names. -/
theorem filter_recordStep (mutated : List Path) (out : List HarvestedConstWrite)
    (write : Path × Text × Node) (qualified : Path) :
    (recordStep mutated out write).filter (·.qualified == qualified) =
      if qualifiedOf write = qualified then
        if out.filter (·.qualified == qualified) = [] then entryOf mutated qualified [write]
        else (out.filter (·.qualified == qualified)).map fun entry =>
          { entry with writes := entry.writes + 1 }
      else out.filter (·.qualified == qualified) := by
  unfold recordStep recordWrite
  rw [← qualifiedOf]
  by_cases present : out.any (·.qualified == qualifiedOf write)
  · rw [if_pos present, filter_map_count]
    split
    next same =>
        have filled : out.filter (·.qualified == qualified) ≠ [] := by
          intro empty
          rcases List.any_eq_true.mp present with ⟨entry, member, own⟩
          rw [same] at own
          exact List.filter_eq_nil_iff.mp empty entry member own
        rw [if_neg filled]
    · rfl
  · rw [if_neg present, List.filter_append]
    split
    next same =>
        have empty : out.filter (·.qualified == qualified) = [] := by
          rw [List.filter_eq_nil_iff]
          intro entry member own
          exact present (List.any_eq_true.mpr ⟨entry, member, same ▸ own⟩)
        rw [if_pos empty, empty]
        simp [entryOf, same]
    next apart => simp [apart]

/-- What a file records for a qualified name sums up the assignments of it that the walk meets. -/
theorem filter_collectLiteralConstants (mutated : List Path) (node : Node) (qualified : Path) :
    (collectLiteralConstants mutated [] [] node).filter (·.qualified == qualified) =
      entryOf mutated qualified
        ((walkedWrites [] node).filter (qualifiedOf · == qualified)) := by
  rw [collectLiteralConstants_eq]
  induction walkedWrites [] node using List.reverseRecOn with
  | nil => rfl
  | append_singleton writes last ih =>
      rw [List.foldl_append, List.foldl_cons, List.foldl_nil, filter_recordStep, ih,
        List.filter_append]
      by_cases own : qualifiedOf last = qualified
      · have lastKept : [last].filter (qualifiedOf · == qualified) = [last] := by simp [own]
        rw [if_pos own, lastKept, entryOf_append_singleton]
        cases writes.filter (qualifiedOf · == qualified) with
        | nil => rfl
        | cons first rest => rfl
      · have lastDropped : [last].filter (qualifiedOf · == qualified) = [] := by simp [own]
        rw [if_neg own, lastDropped, List.append_nil]

end Rigor.Infer.Source
