import Rigor.Infer.Source.Constants

/-!
# The census of mutated constants

A constant that its own file mutates is harvested under a wrapper, so that no read folds through its
literal.  The census walks the parsed file.  It knows a scope by the names of the headers around it,
as they are written, and Ruby knows it by the constants that the headers open.
-/

namespace Rigor.Infer.Source

universe u

/-- The parsed file, as the census and the harvest see it.  An index write is one with an operator,
a plain one is a call.  A write target stands in a multiple assignment, and `other` keeps the
constants that a node assigns by itself. -/
inductive PrismNode where
  | statements (body : List PrismNode)
  | classNode (header : PrismNode) (superclass : Option PrismNode) (body : List PrismNode)
  | moduleNode (header : PrismNode) (body : List PrismNode)
  | singletonClassNode (expression : PrismNode) (body : List PrismNode)
  | constantWrite (name : Text) (value : PrismNode)
  | constantRead (name : Text)
  | rootedConstant (name : Text)
  | constantPath (parent : PrismNode) (name : Text)
  | call (receiver : PrismNode) (name : Text) (attributeWrite : Bool) (arguments blockBody : List PrismNode)
  | indexOperatorWrite (receiver : PrismNode) (arguments : List PrismNode) (value : PrismNode)
  | callOperatorWrite (receiver : PrismNode) (value : PrismNode)
  | writeTarget (receiver : PrismNode) (arguments : List PrismNode)
  | integer (value : Option Int64)
  | float (bits : UInt64)
  | string (value : Text)
  | symbol (value : Text)
  | trueNode
  | falseNode
  | nilNode
  | array (elements : List PrismNode)
  | hash (elements : List PrismNode) (allAssoc : Bool)
  | range (bounds : List PrismNode)
  | other (assigned : List Path) (children : List PrismNode)

namespace PrismNode

/-- The name of a header, without a leading `::` and without a dynamic base. -/
def constantPathString : PrismNode → Path
  | .constantRead name => [name]
  | .rootedConstant name => [name]
  | .constantPath parent name => constantPathString parent ++ [name]
  | _ => []

/-- The name of a constant, if its base is one. -/
def strictConstantPathString : PrismNode → Option Path
  | .constantRead name => some [name]
  | .rootedConstant name => some [name]
  | .constantPath parent name => (strictConstantPathString parent).map (· ++ [name])
  | _ => none

def isConstantPath : PrismNode → Bool
  | .rootedConstant _ => true
  | .constantPath _ _ => true
  | _ => false

/-! ## The lowered tree -/

mutual

def lower : PrismNode → Node
  | .statements body => .statements (lowerAll body)
  | .classNode header _ body => .classDef (constantPathString header) (lowerAll body)
  | .moduleNode header body => .moduleDef (constantPathString header) (lowerAll body)
  | .singletonClassNode _ body => .classDef [] (lowerAll body)
  | .constantWrite name value => .constantWrite name (lower value)
  | .constantRead _ => .other [] []
  | .rootedConstant _ => .other [] []
  | .constantPath parent _ => .other [] [lower parent]
  | .call receiver name _ arguments blockBody =>
      .call (lower receiver) name (lowerAll arguments) (lowerAll blockBody)
  | .indexOperatorWrite receiver arguments value =>
      .other [] (lower receiver :: (lowerAll arguments ++ [lower value]))
  | .callOperatorWrite receiver value => .other [] [lower receiver, lower value]
  | .writeTarget receiver arguments => .other [] (lower receiver :: lowerAll arguments)
  | .integer value => .integerLit value
  | .float bits => .floatLit bits
  | .string value => .stringLit value
  | .symbol value => .symbolLit value
  | .trueNode => .trueLit
  | .falseNode => .falseLit
  | .nilNode => .nilLit
  | .array elements => .arrayLit (lowerAll elements)
  | .hash elements allAssoc => .hashLit (lowerAll elements) allAssoc
  | .range bounds => .range (lowerAll bounds)
  | .other assigned children => .other assigned (lowerAll children)

def lowerAll : List PrismNode → List Node
  | [] => []
  | node :: rest => lower node :: lowerAll rest

end

/-! ## The census -/

/-- `record`: a receiver that is no constant, or has a dynamic base, is left out. -/
def record (headers : List Path) (receiver : PrismNode) (method : Option Text) : List ConstMutation :=
  match strictConstantPathString receiver with
  | none => []
  | some path => [⟨headers, path, receiver.isConstantPath, method⟩]

mutual

/-- `collect_const_mutations`: a named class or module is entered through its body only. -/
def census (headers : List Path) : PrismNode → List ConstMutation
  | .statements body => censusAll headers body
  | .classNode header superclass body =>
      if constantPathString header = [] then
        census headers header ++ (censusOption headers superclass ++ censusAll headers body)
      else censusAll (headers ++ [constantPathString header]) body
  | .moduleNode header body =>
      if constantPathString header = [] then census headers header ++ censusAll headers body
      else censusAll (headers ++ [constantPathString header]) body
  | .singletonClassNode expression body => census headers expression ++ censusAll headers body
  | .constantWrite _ value => census headers value
  | .constantPath parent _ => census headers parent
  | .call receiver name attributeWrite arguments blockBody =>
      record headers receiver (if attributeWrite then none else some name) ++
        (census headers receiver ++ (censusAll headers arguments ++ censusAll headers blockBody))
  | .indexOperatorWrite receiver arguments value =>
      record headers receiver none ++
        (census headers receiver ++ (censusAll headers arguments ++ census headers value))
  | .callOperatorWrite receiver value => census headers receiver ++ census headers value
  | .writeTarget receiver arguments => census headers receiver ++ censusAll headers arguments
  | .array elements => censusAll headers elements
  | .hash elements _ => censusAll headers elements
  | .range bounds => censusAll headers bounds
  | .other _ children => censusAll headers children
  | _ => []

def censusAll (headers : List Path) : List PrismNode → List ConstMutation
  | [] => []
  | node :: rest => census headers node ++ censusAll headers rest

def censusOption (headers : List Path) : Option PrismNode → List ConstMutation
  | none => []
  | some node => census headers node

end

/-- The file as the merge gets it. -/
def sourceFile {FileKey : Type u} (root : PrismNode) (key : FileKey) : SourceFile FileKey :=
  ⟨key, root.lower, census [] root⟩

/-! ## What Ruby does -/

/-- The constant that a node mutates, if it mutates one. -/
def mutatedReceiver : PrismNode → Option PrismNode
  | .call receiver name attributeWrite _ _ =>
      if attributeWrite || isShapeMutator name then some receiver else none
  | .indexOperatorWrite receiver _ _ => some receiver
  | .callOperatorWrite receiver _ => some receiver
  | .writeTarget receiver _ => some receiver
  | _ => none

section Lookup

variable (defined : Path → Bool)

/-- A lookup in the opened scopes, the innermost first, and then at the top. -/
def resolveConstant (scopes : List Path) : PrismNode → Option Path
  | .constantRead name =>
      ((scopes ++ [[]]).find? fun scope => defined (scope ++ [name])).map (· ++ [name])
  | .rootedConstant name => some [name]
  | .constantPath parent name => (resolveConstant scopes parent).map (· ++ [name])
  | _ => none

/-- The constant that a header opens: a bare name is one of the innermost scope. -/
def openedBy (scopes : List Path) : PrismNode → Option Path
  | .constantRead name => some (scopes.headD [] ++ [name])
  | .rootedConstant name => some [name]
  | .constantPath parent name => (resolveConstant defined scopes parent).map (· ++ [name])
  | _ => none

end Lookup

/-- The header and the body of a class or module with a name. -/
def declaration : PrismNode → Option (PrismNode × List PrismNode)
  | .classNode header _ body => if constantPathString header = [] then none else some (header, body)
  | .moduleNode header body => if constantPathString header = [] then none else some (header, body)
  | _ => none

/-- What stands before the body of a class or module. -/
def headerParts : PrismNode → List PrismNode
  | .classNode header superclass _ => header :: superclass.toList
  | .moduleNode header _ => [header]
  | _ => []

def children : PrismNode → List PrismNode
  | .statements body => body
  | .classNode header superclass body => header :: (superclass.toList ++ body)
  | .moduleNode header body => header :: body
  | .singletonClassNode expression body => expression :: body
  | .constantWrite _ value => [value]
  | .constantPath parent _ => [parent]
  | .call receiver _ _ arguments blockBody => receiver :: (arguments ++ blockBody)
  | .indexOperatorWrite receiver arguments value => receiver :: (arguments ++ [value])
  | .callOperatorWrite receiver value => [receiver, value]
  | .writeTarget receiver arguments => receiver :: arguments
  | .array elements => elements
  | .hash elements _ => elements
  | .range bounds => bounds
  | .other _ children => children
  | _ => []

/-- The node stands in the file, under the headers as they are written and in the scopes that they
open, the innermost first.  It stands aside if it is part of what comes before a body. -/
inductive Within (defined : Path → Bool) (root : PrismNode) :
    List Path → List Path → Bool → PrismNode → Prop where
  | root : Within defined root [] [] false root
  | inside {headers scopes : List Path} {aside : Bool} {node child : PrismNode}
      (around : Within defined root headers scopes aside node) (unnamed : node.declaration = none)
      (mem : child ∈ node.children) : Within defined root headers scopes aside child
  | before {headers scopes : List Path} {aside : Bool} {node header child : PrismNode}
      {body : List PrismNode} (around : Within defined root headers scopes aside node)
      (named : node.declaration = some (header, body)) (mem : child ∈ node.headerParts) :
      Within defined root headers scopes true child
  | body {headers scopes : List Path} {aside : Bool} {node header child : PrismNode}
      {body : List PrismNode} {opened : Path}
      (around : Within defined root headers scopes aside node)
      (named : node.declaration = some (header, body))
      (opens : openedBy defined scopes header = some opened) (mem : child ∈ body) :
      Within defined root (headers ++ [constantPathString header]) (opened :: scopes) aside child

/-- A mutating site of the file, with the constant that its receiver is. -/
structure Site (defined : Path → Bool) (root : PrismNode) where
  headers : List Path
  scopes : List Path
  aside : Bool
  node : PrismNode
  receiver : PrismNode
  target : Path
  within : Within defined root headers scopes aside node
  mutates : node.mutatedReceiver = some receiver
  resolves : resolveConstant defined scopes receiver = some target

/-- The file harvests no literal of the constant without the wrapper, and no project that has the
file keeps one. -/
structure NeverBare (root : PrismNode) (target : Path) : Prop where
  harvest : ∀ (FileKey : Type) (key : FileKey), ∀ write ∈ (root.sourceFile key).constantWrites,
    write.qualified = target → ∀ lit, write.lit = some lit → ∃ seed, lit = .widened seed
  reads : ∀ (FileKey : Type) (key : FileKey) (files : List (SourceFile FileKey)),
    root.sourceFile key ∈ files → (root.sourceFile key).walked target ≠ [] →
      ∀ entry, (qualifiedLiteralConstants files).lookup target = some entry →
        ∃ seed, entry.lit = .widened seed

/-- The census has a record for the node: a call, or an index write with an operator. -/
def Recorded (node receiver : PrismNode) : Prop :=
  (∃ name attributeWrite arguments blockBody,
      node = .call receiver name attributeWrite arguments blockBody) ∨
    ∃ arguments value, node = .indexOperatorWrite receiver arguments value

/-- The scopes that the headers name, the innermost first. -/
def namedScopes (headers : List Path) : List Path :=
  (List.range headers.length).map fun keep => (headers.take (headers.length - keep)).flatten

namespace Site

variable {defined : Path → Bool} {root : PrismNode}

/-- The site stands in a body whose headers open what they are written as, and a path is resolved
as it is written. -/
structure AsWritten (site : Site defined root) : Prop where
  recorded : site.node.Recorded site.receiver
  inBody : site.aside = false
  scopes : site.scopes = namedScopes site.headers
  path : site.receiver.isConstantPath = true →
    strictConstantPathString site.receiver = some site.target

end Site

/-! ## What the census reaches -/

variable {defined : Path → Bool} {root node child header receiver : PrismNode} {headers scopes : List Path}
  {body nodes : List PrismNode} {aside : Bool} {mutation : ConstMutation} {target : Path}

theorem mem_censusAll : mutation ∈ censusAll headers nodes ↔
    ∃ node ∈ nodes, mutation ∈ census headers node := by
  induction nodes with
  | nil => simp [censusAll]
  | cons node rest ih => rw [censusAll, List.mem_append, ih, List.exists_mem_cons_iff]

theorem mem_censusOption {superclass : Option PrismNode} :
    mutation ∈ censusOption headers superclass ↔
      ∃ node ∈ superclass.toList, mutation ∈ census headers node := by
  cases superclass <;> simp [censusOption]

/-- The records of the parts of a node, unless it is a class or module with a name. -/
theorem mem_census_child (unnamed : node.declaration = none) (mem : child ∈ node.children)
    (found : mutation ∈ census headers child) : mutation ∈ census headers node := by
  have parts : ∃ part ∈ node.children, mutation ∈ census headers part := ⟨child, mem, found⟩
  cases node with
  | classNode header superclass body =>
      have nameless : constantPathString header = [] := by
        by_contra named
        rw [declaration, if_neg named] at unnamed
        exact nomatch unnamed
      rw [census, if_pos nameless, List.mem_append, List.mem_append, mem_censusOption, mem_censusAll]
      simpa [children, or_and_right, exists_or] using parts
  | moduleNode header body =>
      have nameless : constantPathString header = [] := by
        by_contra named
        rw [declaration, if_neg named] at unnamed
        exact nomatch unnamed
      rw [census, if_pos nameless, List.mem_append, mem_censusAll]
      simpa [children] using parts
  | call receiver name attributeWrite arguments blockBody =>
      rw [census, List.mem_append, List.mem_append, List.mem_append, mem_censusAll, mem_censusAll]
      right
      simpa [children, or_and_right, exists_or] using parts
  | indexOperatorWrite receiver arguments value =>
      rw [census, List.mem_append, List.mem_append, List.mem_append, mem_censusAll]
      right
      simpa [children, or_and_right, exists_or] using parts
  | singletonClassNode expression body =>
      rw [census, List.mem_append, mem_censusAll]
      simpa [children] using parts
  | callOperatorWrite receiver value =>
      rw [census, List.mem_append]
      simpa [children] using parts
  | writeTarget receiver arguments =>
      rw [census, List.mem_append, mem_censusAll]
      simpa [children] using parts
  | statements _ | array _ | hash _ _ | range _ | other _ _ =>
      rw [census, mem_censusAll]
      exact parts
  | constantWrite _ _ | constantPath _ _ =>
      rw [census]
      simpa [children] using parts
  | constantRead _ | rootedConstant _ | integer _ | float _ | string _ | symbol _ | trueNode
  | falseNode | nilNode => simp [children] at mem

theorem mem_census_body (named : node.declaration = some (header, body)) (mem : child ∈ body)
    (found : mutation ∈ census (headers ++ [constantPathString header]) child) :
    mutation ∈ census headers node := by
  cases node with
  | classNode header' superclass body' =>
      rw [declaration, Option.ite_none_left_eq_some] at named
      rcases named with ⟨spelled, same⟩
      cases same
      rw [census, if_neg spelled]
      exact mem_censusAll.mpr ⟨child, mem, found⟩
  | moduleNode header' body' =>
      rw [declaration, Option.ite_none_left_eq_some] at named
      rcases named with ⟨spelled, same⟩
      cases same
      rw [census, if_neg spelled]
      exact mem_censusAll.mpr ⟨child, mem, found⟩
  | _ => exact nomatch named

theorem mem_census_of_within (within : Within defined root headers scopes aside node)
    (inBody : aside = false) (found : mutation ∈ census headers node) : mutation ∈ census [] root := by
  induction within with
  | root => exact found
  | inside _ unnamed mem ih => exact ih inBody (mem_census_child unnamed mem found)
  | before _ _ _ _ => exact nomatch inBody
  | body _ named _ mem ih => exact ih inBody (mem_census_body named mem found)

/-! ## The names of a site -/

theorem strict_of_resolves : ∀ {receiver : PrismNode} {target : Path},
    resolveConstant defined scopes receiver = some target →
      ∃ front name, strictConstantPathString receiver = some (front ++ [name])
  | .constantRead name, _, _ => ⟨[], name, rfl⟩
  | .rootedConstant name, _, _ => ⟨[], name, rfl⟩
  | .constantPath parent name, _, resolves => by
      rcases Option.map_eq_some_iff.mp resolves with ⟨base, inner, _⟩
      rcases strict_of_resolves inner with ⟨front, last, spelled⟩
      exact ⟨front ++ [last], name, by rw [strictConstantPathString, spelled, Option.map_some]⟩

theorem resolves_bare {name : Text}
    (resolves : resolveConstant defined scopes (.constantRead name) = some target) :
    ∃ scope ∈ scopes ++ [[]], target = scope ++ [name] := by
  rcases Option.map_eq_some_iff.mp resolves with ⟨scope, found, rfl⟩
  exact ⟨scope, List.mem_of_find?_eq_some found, rfl⟩

/-- The named scopes and the top are the candidates of a bare receiver. -/
theorem mem_candidates {scope : Path} (mem : scope ∈ namedScopes headers ++ [[]]) :
    ∃ keep ∈ List.range (headers.length + 1), (headers.take (headers.length - keep)).flatten = scope := by
  rcases List.mem_append.mp mem with inner | top
  · rcases List.mem_map.mp inner with ⟨keep, inRange, same⟩
    exact ⟨keep, List.mem_range.mpr (Nat.lt_succ_of_lt (List.mem_range.mp inRange)), same⟩
  · refine ⟨headers.length, List.mem_range.mpr (Nat.lt_succ_self _), ?_⟩
    rw [Nat.sub_self, List.take_zero, List.flatten_nil, List.mem_singleton.mp top]

/-- A record that mutates names what its receiver is resolved to. -/
theorem target_mem_names {method : Option Text} {path : Path}
    (spelled : strictConstantPathString receiver = some path) (mutates : (method.map isShapeMutator).getD true = true)
    (resolves : resolveConstant defined (namedScopes headers) receiver = some target)
    (written : receiver.isConstantPath = true → strictConstantPathString receiver = some target) :
    target ∈ ConstMutation.names ⟨headers, path, receiver.isConstantPath, method⟩ := by
  rcases strict_of_resolves resolves with ⟨front, last, nonempty⟩
  have named : path ≠ [] := by
    rw [spelled] at nonempty
    cases nonempty
    simp
  have counts : ¬ ((method.map isShapeMutator).getD true = false ∨ path = []) := by
    rw [mutates]
    simp [named]
  unfold ConstMutation.names
  rw [if_neg counts]
  cases isPath : receiver.isConstantPath with
  | true =>
      rw [spelled] at written
      simp only [if_true, List.mem_singleton]
      exact (Option.some.inj (written isPath)).symm
  | false =>
      cases receiver with
      | constantRead name =>
          cases spelled
          rcases resolves_bare resolves with ⟨scope, mem, rfl⟩
          rcases mem_candidates mem with ⟨keep, inRange, rfl⟩
          simp only [Bool.false_eq_true, if_false]
          exact List.mem_map.mpr ⟨keep, inRange, rfl⟩
      | rootedConstant _ | constantPath _ _ => cases isPath
      | _ => cases resolves

/-- The census names the constant of every site that it records as written. -/
theorem target_mem_mutated (site : Site defined root) (written : site.AsWritten) :
    site.target ∈ mutatedConstantNames (census [] root) := by
  rcases site with ⟨headers, scopes, aside, node, receiver, target, within, mutates, resolves⟩
  rcases written with ⟨recorded, inBody, scopesEq, path⟩
  simp only at recorded inBody scopesEq path ⊢
  subst scopesEq
  rcases strict_of_resolves resolves with ⟨front, last, spelled⟩
  have reached (method : Option Text) (counts : (method.map isShapeMutator).getD true = true)
      (mem : ⟨headers, front ++ [last], receiver.isConstantPath, method⟩ ∈ census headers node) :
      target ∈ mutatedConstantNames (census [] root) :=
    List.mem_flatMap.mpr
      ⟨_, mem_census_of_within within inBody mem, target_mem_names spelled counts resolves path⟩
  rcases recorded with ⟨name, attributeWrite, arguments, blockBody, rfl⟩ | ⟨arguments, value, rfl⟩
  · have counts : ((if attributeWrite then none else some name).map isShapeMutator).getD true = true := by
      rw [mutatedReceiver] at mutates
      split at mutates
      next mutator => cases attributeWrite <;> simp_all
      next => exact nomatch mutates
    refine reached _ counts ?_
    rw [census, List.mem_append, record, spelled]
    exact .inl List.mem_cons_self
  · refine reached none rfl ?_
    rw [census, List.mem_append, record, spelled]
    exact .inl List.mem_cons_self

/-! ## The wrapped literals -/

theorem widened_of_harvested {mutated : List Path} {value : Node} {lit : ConstLit}
    (mem : target ∈ mutated) (harvested : harvestedLit mutated target value = some lit) :
    ∃ seed, lit = .widened seed := by
  rcases Option.map_eq_some_iff.mp harvested with ⟨seed, _, rfl⟩
  exact ⟨seed, by rw [widenIfMutated, if_pos (List.contains_iff_mem.mpr mem)]⟩

theorem neverBare_of_mem (mem : target ∈ mutatedConstantNames (census [] root)) :
    NeverBare root target where
  harvest FileKey key write inWrites qualified lit recorded := by
    have inEntry : write ∈ entryOf (root.sourceFile key).mutated target
        ((root.sourceFile key).walked target) := by
      rw [← filter_constantWrites]
      exact List.mem_filter.mpr ⟨inWrites, beq_iff_eq.mpr qualified⟩
    cases all : (root.sourceFile key).walked target with
    | nil =>
        rw [all] at inEntry
        exact nomatch inEntry
    | cons first rest =>
        rw [all] at inEntry
        rw [List.mem_singleton.mp inEntry] at recorded
        exact widened_of_harvested mem recorded
  reads FileKey key files inFiles walked entry found := by
    rcases ((lookup_qualifiedLiteralConstants files target entry).mp found).single with
      ⟨file, write, all, _, _, harvested⟩
    rcases List.exists_mem_of_ne_nil _ walked with ⟨own, inWalked⟩
    have inLocated : (root.sourceFile key, own) ∈ located files target :=
      List.mem_flatMap.mpr ⟨_, inFiles, List.mem_map_of_mem inWalked⟩
    rw [all, List.mem_singleton] at inLocated
    have same : root.sourceFile key = file := congrArg Prod.fst inLocated
    rw [← same] at harvested
    exact widened_of_harvested mem harvested

/-- No constant that a recorded site mutates as written is read as its bare literal. -/
theorem neverBare_of_asWritten (defined : Path → Bool) (root : PrismNode) (site : Site defined root)
    (written : site.AsWritten) : NeverBare root site.target :=
  neverBare_of_mem (target_mem_mutated site written)

/-- `C << 2`. -/
def pushSite (receiver : PrismNode) : PrismNode :=
  .call receiver "<<".toList false [.integer (some 2)] []

/-- `C = [1]`. -/
def seedWrite (name : Text) : PrismNode :=
  .constantWrite name (.array [.integer (some 1)])

/-- `C = [1]; C << 2` in a module. -/
def sampleFile : PrismNode :=
  .statements [.moduleNode (.constantRead "M".toList)
    [seedWrite "C".toList, pushSite (.constantRead "C".toList)]]

/-- The site in the body of the first statement, a declaration at the top of the file. -/
theorem within_first {defined : Path → Bool} {opened : Path} {rest : List PrismNode}
    (named : node.declaration = some (header, body)) (opens : openedBy defined [] header = some opened)
    (mem : child ∈ body) :
    Within defined (.statements (node :: rest)) [constantPathString header] [opened] false child :=
  .body (.inside .root rfl List.mem_cons_self) named opens mem

def sampleSite : Site (fun path => decide (path = ["M".toList, "C".toList])) sampleFile :=
  ⟨_, _, _, pushSite (.constantRead "C".toList), .constantRead "C".toList, ["M".toList, "C".toList],
    within_first rfl rfl (List.mem_cons_of_mem _ List.mem_cons_self), rfl, rfl⟩

theorem asWritten_sampleSite : sampleSite.AsWritten where
  recorded := .inl ⟨_, _, _, _, rfl⟩
  inBody := rfl
  scopes := rfl
  path isPath := absurd isPath Bool.false_ne_true

theorem neverBare_sampleFile : NeverBare sampleFile sampleSite.target :=
  neverBare_of_asWritten _ sampleFile sampleSite asWritten_sampleSite

theorem not_neverBare {elements : List ConstLit} {home : Path} {writes : Nat}
    (harvested : (root.sourceFile ()).constantWrites = [⟨target, home, some (.tuple elements), writes⟩]) :
    ¬ NeverBare root target := by
  intro never
  rcases never.harvest Unit () _ (harvested ▸ List.mem_cons_self) rfl _ rfl with ⟨seed, same⟩
  exact nomatch same

theorem exists_bare (within : Within defined root headers scopes aside node)
    (mutates : node.mutatedReceiver = some receiver)
    (resolves : resolveConstant defined scopes receiver = some target) {elements : List ConstLit}
    {home : Path} {writes : Nat}
    (harvested : (root.sourceFile ()).constantWrites = [⟨target, home, some (.tuple elements), writes⟩]) :
    ∃ defined, ∃ site : Site defined root, ¬ NeverBare root site.target :=
  ⟨defined, ⟨_, _, _, _, _, _, within, mutates, resolves⟩, not_neverBare harvested⟩

/-- `module M; module A; B = [1]; end; A::B << 2; end`. -/
def pathFile : PrismNode :=
  .statements [.moduleNode (.constantRead "M".toList)
    [.moduleNode (.constantRead "A".toList) [seedWrite "B".toList],
      pushSite (.constantPath (.constantRead "A".toList) "B".toList)]]

/-- `class A; C = [1]; end; module M; class ::A; C << 2; end; end`. -/
def rootedHeaderFile : PrismNode :=
  .statements [.classNode (.constantRead "A".toList) none [seedWrite "C".toList],
    .moduleNode (.constantRead "M".toList)
      [.classNode (.rootedConstant "A".toList) none [pushSite (.constantRead "C".toList)]]]

/-- `C = [1]; class K < (C << 2); end`. -/
def superclassFile : PrismNode :=
  .statements [seedWrite "C".toList,
    .classNode (.constantRead "K".toList) (some (pushSite (.constantRead "C".toList))) []]

/-- `C = [1]; C[0], x = 2, 3`. -/
def writeTargetFile : PrismNode :=
  .statements [seedWrite "C".toList,
    .other [] [.writeTarget (.constantRead "C".toList) [.integer (some 0)]]]

/-- `C = [1]; C.default ||= 2`. -/
def operatorFile : PrismNode :=
  .statements [seedWrite "C".toList,
    .callOperatorWrite (.constantRead "C".toList) (.integer (some 2))]

/-- A path that a scope has, a rooted header, a superclass, a target and an operator on an attribute
leave the constant bare. -/
theorem bare_sites :
    (∃ defined, ∃ site : Site defined pathFile, ¬ NeverBare pathFile site.target) ∧
      (∃ defined, ∃ site : Site defined rootedHeaderFile, ¬ NeverBare rootedHeaderFile site.target) ∧
      (∃ defined, ∃ site : Site defined superclassFile, ¬ NeverBare superclassFile site.target) ∧
      (∃ defined, ∃ site : Site defined writeTargetFile, ¬ NeverBare writeTargetFile site.target) ∧
      ∃ defined, ∃ site : Site defined operatorFile, ¬ NeverBare operatorFile site.target := by
  refine ⟨?path, ?rooted, ?superclass, ?target, ?operator⟩
  case path =>
    have within : Within (fun path => decide (path = ["M".toList, "A".toList])) pathFile _ _ _ _ :=
      within_first rfl rfl (List.mem_cons_of_mem _ List.mem_cons_self)
    exact exists_bare within rfl rfl rfl
  case rooted =>
    have inModule : Within (fun path => decide (path = ["A".toList, "C".toList])) rootedHeaderFile
        _ _ _ _ := .inside .root rfl (List.mem_cons_of_mem _ List.mem_cons_self)
    exact exists_bare (.body (.body inModule rfl rfl List.mem_cons_self) rfl rfl List.mem_cons_self)
      rfl rfl rfl
  case superclass =>
    have inFile : Within (fun _ => true) superclassFile _ _ _ _ :=
      .inside .root rfl (List.mem_cons_of_mem _ List.mem_cons_self)
    exact exists_bare (.before inFile rfl (List.mem_cons_of_mem _ List.mem_cons_self)) rfl rfl rfl
  case target =>
    have inFile : Within (fun _ => true) writeTargetFile _ _ _ _ :=
      .inside .root rfl (List.mem_cons_of_mem _ List.mem_cons_self)
    exact exists_bare (.inside inFile rfl List.mem_cons_self) rfl rfl rfl
  case operator =>
    have inFile : Within (fun _ => true) operatorFile _ _ _ _ :=
      .inside .root rfl (List.mem_cons_of_mem _ List.mem_cons_self)
    exact exists_bare inFile rfl rfl rfl

end PrismNode

end Rigor.Infer.Source
