import Mathlib.Data.List.Sort
import Rigor.Library.ClassTable
import Rigor.Rust.Str

/-!
# Shadowed rescue clauses

A `rescue` clause is dead if earlier clauses of its chain catch every class it names.  The rule
resolves the names of each clause and compares the classes by the class index and by the superclasses
the project declares.
-/

namespace Rigor.Rules

/-- A dotted constant, by its names.  The source joins and splits them at `::`. -/
abbrev ConstPath := List Text

abbrev NodeId := Nat

/-- Byte offsets. -/
abbrev Span := Nat × Nat

structure RescueClause where
  exceptions : List NodeId
  span : Span
  deriving DecidableEq

/-- The nodes the rule reads. -/
inductive Node where
  | beginRescue (clauses : List RescueClause) (span : Span)
  /-- A leading `::` is not part of the name, and a base that is not a constant adds nothing
  to it. -/
  | constantRead (name : ConstPath) (span : Span) (dynamicBase : Bool)
  | classDef (name : ConstPath) (rooted : Bool) (span : Span)
  | moduleDef (name : ConstPath) (rooted : Bool) (span : Span)
  | other (span : Span)
  deriving DecidableEq

def Node.span : Node → Span
  | .beginRescue _ span | .constantRead _ span _ | .classDef _ _ span | .moduleDef _ _ span
  | .other span => span

structure LoweredAst where
  nodes : List Node

def LoweredAst.get (ast : LoweredAst) (id : NodeId) : Node :=
  ast.nodes.getD id (.other (0, 0))

inductive ClassOrdering where
  | equal
  | subclass
  | superclass
  | disjoint
  | unknown
  deriving DecidableEq

/-- What the rule asks of the index of core classes. -/
structure CoreIndex where
  knowsClass : ConstPath → Bool
  isModule : ConstPath → Bool
  classOrdering : ConstPath → ConstPath → ClassOrdering

/-- The classes and modules of the project, each with the superclass written in its header. -/
structure SourceIndex where
  classes : List (ConstPath × Option ConstPath)

namespace SourceIndex

def knowsClass (source : SourceIndex) (name : ConstPath) : Bool :=
  (source.classes.lookup name).isSome

def discoveredSuperclass (source : SourceIndex) (name : ConstPath) : Option ConstPath :=
  (source.classes.lookup name).bind id

end SourceIndex

inductive Severity where
  | error
  | warning
  | info
  deriving DecidableEq

structure Diagnostic where
  ruleId : Text
  startOffset : Nat
  endOffset : Nat
  message : Text
  severity : Severity
  sourceFamily : Text
  receiverType : Option Text
  methodName : Option Text

/-- `IMPLICIT_RESCUE_CLASS`. -/
def implicitRescueClass : ConstPath :=
  ["StandardError".toList]

/-- `SUPERCLASS_WALK_LIMIT`. -/
def superclassWalkLimit : Nat :=
  32

/-- A certified clause.  Its position in the chain stands for its address. -/
structure ClauseInfo where
  position : Nat
  clause : RescueClause
  names : List ConstPath
  deriving DecidableEq

/-- `source.get(span).unwrap_or("")`. -/
def rawSlice (text : Text) (span : Span) : Text :=
  (Text.slice text span.1 span.2).toOption.getD []

/-! ## The enclosing scopes -/

/-- The class or module whose span holds `inner`. -/
def enclosingHeader (inner : Span) : Node → Option (Span × Library.ClassTable.Header Text)
  | .classDef name rooted span | .moduleDef name rooted span =>
      if name = [] then none
      else if span.1 ≤ inner.1 ∧ inner.2 ≤ span.2 ∧ span ≠ inner then some (span, ⟨name, rooted⟩)
      else none
  | _ => none

/-- Smallest start first, then largest end. -/
def outermostFirst (a b : Span × Library.ClassTable.Header Text) : Prop :=
  a.1.1 < b.1.1 ∨ a.1.1 = b.1.1 ∧ b.1.2 ≤ a.1.2

instance : DecidableRel outermostFirst := fun _ _ =>
  inferInstanceAs (Decidable (_ ∨ _))

def enclosingHeaders (ast : LoweredAst) (inner : Span) :
    List (Library.ClassTable.Header Text) :=
  ((ast.nodes.filterMap (enclosingHeader inner)).insertionSort outermostFirst).map (·.2)

def enclosingPrefix (ast : LoweredAst) (inner : Span) : List ConstPath :=
  (enclosingHeaders ast inner).map (·.path)

/-! ## Constants -/

section Constants

variable (ast : LoweredAst) (index : CoreIndex) (sourceIndex : SourceIndex) (text : Text)

def knownName (name : ConstPath) : Bool :=
  sourceIndex.knowsClass name || index.knowsClass name

/-- The scopes of a prefix, from the whole prefix to its first element. -/
def scopesOf (enclosing : List ConstPath) : List ConstPath :=
  (List.range' 1 enclosing.length).reverse.map fun i => (enclosing.take i).flatten

def resolveConstant (exc : NodeId) (enclosing : List ConstPath) : Option ConstPath :=
  match ast.get exc with
  | .constantRead name span _ =>
      if name = [] then none
      else if ("::".toList).isPrefixOf (rawSlice text span) then
        if knownName index sourceIndex name then some name else none
      else
        match ((scopesOf enclosing).map (· ++ name)).find? (knownName index sourceIndex) with
        | some candidate => some candidate
        | none => if knownName index sourceIndex name then some name else none
  | _ => none

def certifiedClass (name : ConstPath) : Bool :=
  if (sourceIndex.discoveredSuperclass name).isSome then true
  else if sourceIndex.knowsClass name then false
  else index.knowsClass name && !index.isModule name

def certifiedExceptionClass (exc : NodeId) (enclosing : List ConstPath) : Option ConstPath :=
  (resolveConstant ast index sourceIndex text exc enclosing).filter
    (certifiedClass index sourceIndex)

def clauseInfo (position : Nat) (clause : RescueClause) (enclosing : List ConstPath) :
    Option ClauseInfo :=
  if clause.exceptions = [] then
    if certifiedClass index sourceIndex implicitRescueClass then
      some ⟨position, clause, [implicitRescueClass]⟩
    else none
  else
    (clause.exceptions.mapM fun exc =>
      certifiedExceptionClass ast index sourceIndex text exc enclosing).map
        fun names => ⟨position, clause, names⟩

/-! ## Coverage -/

/-- Inside the longest namespace of the child that knows the parent, else as it is written. -/
def resolveParent (child parent : ConstPath) : ConstPath :=
  (((List.range' 1 (child.length - 1)).reverse.map fun n => child.take n ++ parent).find?
    (knownName index sourceIndex)).getD parent

/-- The loop of `project_chain_covered`. -/
def chainWalk (earlier : ConstPath) : Nat → ConstPath → List ConstPath → Bool
  | 0, _, _ => false
  | limit + 1, current, seen =>
      match sourceIndex.discoveredSuperclass current with
      | none => false
      | some parent =>
          let resolved := resolveParent index sourceIndex current parent
          if resolved ∈ seen then false
          else if resolved = earlier then true
          else
            match index.classOrdering resolved earlier with
            | .equal | .subclass => true
            | .unknown => chainWalk earlier limit resolved (seen ++ [resolved])
            | .superclass | .disjoint => false

def projectChainCovered (later earlier : ConstPath) : Bool :=
  chainWalk index sourceIndex earlier superclassWalkLimit later []

def coveredBy (later earlier : ConstPath) : Bool :=
  if later = earlier then true
  else
    match index.classOrdering later earlier with
    | .equal | .subclass => true
    | .unknown => projectChainCovered index sourceIndex later earlier
    | .superclass | .disjoint => false

/-- The first earlier clause that covers the name. -/
def coveringClause (comparable : List ClauseInfo) (name : ConstPath) : Option ClauseInfo :=
  comparable.find? fun earlier => earlier.names.any fun e => coveredBy index sourceIndex name e

end Constants

/-! ## Reports -/

def clauseSource (ast : LoweredAst) (text : Text) (clause : RescueClause) : Text :=
  if clause.exceptions = [] then "rescue".toList
  else
    "rescue ".toList ++
      ", ".toList.intercalate (clause.exceptions.map fun id => rawSlice text (ast.get id).span)

def lineStartsOf (text : Text) : List Nat :=
  0 :: (Text.bytes text).zipIdx.filterMap fun (byte, i) => if byte = 10 then some (i + 1) else none

/-- The starts are in order, so that the binary search of the source counts those up to
the offset. -/
def lineAt (lineStarts : List Nat) (offset : Nat) : Nat :=
  (lineStarts.takeWhile (· ≤ offset)).length

/-- `Array#uniq` by the address of the clause. -/
def distinctClauses (covering : List ClauseInfo) : List ClauseInfo :=
  covering.foldl (fun clauses c =>
    if clauses.any (·.position == c.position) then clauses else clauses ++ [c]) []

def shadowedMessage (clauseSrc : Text) (earlierRendered : List Text) : Text :=
  "shadowed `".toList ++ clauseSrc ++
    "': every exception class it names is already caught by the earlier ".toList ++
    " and ".toList.intercalate earlierRendered ++ " clause".toList ++
    (if 1 < earlierRendered.length then "s".toList else []) ++
    ", so this clause can never run".toList

def shadowedDiagnostic (span : Span) (message : Text) (severity : Severity) : Diagnostic where
  ruleId := "flow.shadowed-rescue-clause".toList
  startOffset := span.1
  endOffset := span.2
  message := message
  severity := severity
  sourceFamily := "builtin".toList
  receiverType := none
  methodName := none

def checkShadowed (ast : LoweredAst) (index : CoreIndex) (sourceIndex : SourceIndex) (text : Text)
    (lineStarts : List Nat) (severity : Severity) (info : ClauseInfo)
    (earlier : List (Option ClauseInfo)) : Option Diagnostic :=
  let comparable := earlier.filterMap id
  if comparable = [] then none
  else
    (info.names.mapM (coveringClause index sourceIndex comparable)).map fun covering =>
      let earlierRendered := (distinctClauses covering).map fun c =>
        "`".toList ++ clauseSource ast text c.clause ++ "' (line ".toList ++
          Nat.toDigits 10 (lineAt lineStarts c.clause.span.1) ++ ")".toList
      shadowedDiagnostic info.clause.span
        (shadowedMessage (clauseSource ast text info.clause) earlierRendered) severity

/-- The certified clauses of a chain. -/
def clauseInfos (ast : LoweredAst) (index : CoreIndex) (sourceIndex : SourceIndex) (text : Text)
    (clauses : List RescueClause) (span : Span) : List (Option ClauseInfo) :=
  clauses.zipIdx.map fun (clause, position) =>
    clauseInfo ast index sourceIndex text position clause (enclosingPrefix ast span)

def chainDiagnostics (ast : LoweredAst) (index : CoreIndex) (sourceIndex : SourceIndex)
    (text : Text) (severity : Severity) (clauses : List RescueClause) (span : Span) :
    List Diagnostic :=
  if clauses.length < 2 then []
  else
    let infos := clauseInfos ast index sourceIndex text clauses span
    infos.zipIdx.filterMap fun (info, idx) =>
      if idx = 0 then none
      else
        info.bind fun info =>
          checkShadowed ast index sourceIndex text (lineStartsOf text) severity info
            (infos.take idx)

/-- The severity is the one of the rule catalog, a warning if it has none. -/
def shadowedRescueDiagnostics (ast : LoweredAst) (index : CoreIndex) (sourceIndex : SourceIndex)
    (text : Text) (catalogSeverity : Option Severity) : List Diagnostic :=
  ast.nodes.flatMap fun
    | .beginRescue clauses span =>
        chainDiagnostics ast index sourceIndex text (catalogSeverity.getD .warning) clauses span
    | _ => []

end Rigor.Rules
