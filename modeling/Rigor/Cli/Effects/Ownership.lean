import Rigor.Cli.Effects.Summary

/-!
# Frame-owned locals

Which locals of a method hold an object that only its frame holds.  A mutation of one is labelled
`mutate.local`, and that label is not reported.  The scan collects the bare reads in the positions
that it knows to let a value out of the frame.  There are more such positions.
-/

namespace Rigor.Cli.Effects.Ownership

open Std

/-- The name of a variable that is not a local. -/
inductive Variable where
  | instanceVariable (name : Text)
  | classVariable (name : Text)
  | globalVariable (name : Text)
  | constant (name : Text)

/-- `||=`, `&&=`, and the assignments with another operator. -/
inductive Update where
  | or
  | and
  | operator (name : Text)

/-- A Prism node.  The `ArgumentsNode` of a call and the `StatementsNode` of a clause stand as lists.
`other` is any other kind: a nested `def`, a block, a splat, the keywords of a call, and so on. -/
inductive Node where
  | localVariableRead (name : Text)
  | localVariableWrite (name : Text) (value : Node)
  | localVariableUpdate (form : Update) (name : Text) (value : Node)
  | localVariableTarget (name : Text)
  | variableWrite (target : Variable) (value : Node)
  | variableUpdate (form : Update) (target : Variable) (value : Node)
  | constantPathWrite (path value : Node)
  | constantPathUpdate (form : Update) (path value : Node)
  | call (receiver : Option Node) (name : Text) (arguments : List Node) (block : Option Node)
  /-- `receiver.name ||= value`. -/
  | callUpdate (form : Update) (receiver : Option Node) (name : Text) (value : Node)
  /-- `receiver[arguments] ||= value`. -/
  | indexUpdate (form : Update) (receiver : Option Node) (arguments : List Node) (block : Option Node)
      (value : Node)
  | blockArgument (expression : Option Node)
  | yieldNode (arguments : List Node)
  | superNode (arguments : List Node) (block : Option Node)
  | returnNode (arguments : List Node)
  | breakNode (arguments : List Node)
  | nextNode (arguments : List Node)
  | arrayNode (elements : List Node)
  | hashNode (elements : List Node)
  | assocNode (key value : Node)
  | stringNode
  | interpolatedString (parts : List Node)
  | lambdaNode (parameters body : Option Node)
  | statementsNode (body : List Node)
  | parenthesesNode (body : Option Node)
  | ifNode (predicate : Node) (statements : List Node) (subsequent : Option Node)
  | unlessNode (predicate : Node) (statements : List Node) (elseClause : Option Node)
  | elseNode (statements : List Node)
  | caseNode (predicate : Option Node) (conditions : List Node) (elseClause : Option Node)
  | whenNode (conditions statements : List Node)
  | inNode (pattern : Node) (statements : List Node)
  | beginNode (statements : List Node) (rescueClause elseClause ensureClause : Option Node)
  | rescueNode (exceptions : List Node) (reference : Option Node) (statements : List Node)
      (subsequent : Option Node)
  /-- A match with named captures. -/
  | matchWrite (test : Node) (targets : List Node)
  /-- `pattern => target`. -/
  | capturePattern (value target : Node)
  | other (children : List Node)

namespace Node

mutual

/-- A node and all nodes below it, each with whether the walk enters it.  A child in a field of a
concrete type is not entered, and its own children are: of the kinds that the scan looks at, the
call of a match and the target of a capture are such. -/
def visited (enters : Bool) : Node → List (Bool × Node)
  | .localVariableRead name => [(enters, .localVariableRead name)]
  | .localVariableWrite name value => (enters, .localVariableWrite name value) :: value.visited true
  | .localVariableUpdate form name value =>
      (enters, .localVariableUpdate form name value) :: value.visited true
  | .localVariableTarget name => [(enters, .localVariableTarget name)]
  | .variableWrite target value => (enters, .variableWrite target value) :: value.visited true
  | .variableUpdate form target value => (enters, .variableUpdate form target value) :: value.visited true
  | .constantPathWrite path value =>
      (enters, .constantPathWrite path value) :: (path.visited true ++ value.visited true)
  | .constantPathUpdate form path value =>
      (enters, .constantPathUpdate form path value) :: (path.visited true ++ value.visited true)
  | .call receiver name arguments block =>
      (enters, .call receiver name arguments block) ::
        (visitedOpt receiver ++ (visitedAll arguments ++ visitedOpt block))
  | .callUpdate form receiver name value =>
      (enters, .callUpdate form receiver name value) :: (visitedOpt receiver ++ value.visited true)
  | .indexUpdate form receiver arguments block value =>
      (enters, .indexUpdate form receiver arguments block value) ::
        (visitedOpt receiver ++ (visitedAll arguments ++ (visitedOpt block ++ value.visited true)))
  | .blockArgument expression => (enters, .blockArgument expression) :: visitedOpt expression
  | .yieldNode arguments => (enters, .yieldNode arguments) :: visitedAll arguments
  | .superNode arguments block =>
      (enters, .superNode arguments block) :: (visitedAll arguments ++ visitedOpt block)
  | .returnNode arguments => (enters, .returnNode arguments) :: visitedAll arguments
  | .breakNode arguments => (enters, .breakNode arguments) :: visitedAll arguments
  | .nextNode arguments => (enters, .nextNode arguments) :: visitedAll arguments
  | .arrayNode elements => (enters, .arrayNode elements) :: visitedAll elements
  | .hashNode elements => (enters, .hashNode elements) :: visitedAll elements
  | .assocNode key value => (enters, .assocNode key value) :: (key.visited true ++ value.visited true)
  | .stringNode => [(enters, .stringNode)]
  | .interpolatedString parts => (enters, .interpolatedString parts) :: visitedAll parts
  | .lambdaNode parameters body =>
      (enters, .lambdaNode parameters body) :: (visitedOpt parameters ++ visitedOpt body)
  | .statementsNode body => (enters, .statementsNode body) :: visitedAll body
  | .parenthesesNode body => (enters, .parenthesesNode body) :: visitedOpt body
  | .ifNode predicate statements subsequent =>
      (enters, .ifNode predicate statements subsequent) ::
        (predicate.visited true ++ (visitedAll statements ++ visitedOpt subsequent))
  | .unlessNode predicate statements elseClause =>
      (enters, .unlessNode predicate statements elseClause) ::
        (predicate.visited true ++ (visitedAll statements ++ visitedOpt elseClause))
  | .elseNode statements => (enters, .elseNode statements) :: visitedAll statements
  | .caseNode predicate conditions elseClause =>
      (enters, .caseNode predicate conditions elseClause) ::
        (visitedOpt predicate ++ (visitedAll conditions ++ visitedOpt elseClause))
  | .whenNode conditions statements =>
      (enters, .whenNode conditions statements) :: (visitedAll conditions ++ visitedAll statements)
  | .inNode pattern statements =>
      (enters, .inNode pattern statements) :: (pattern.visited true ++ visitedAll statements)
  | .beginNode statements rescueClause elseClause ensureClause =>
      (enters, .beginNode statements rescueClause elseClause ensureClause) ::
        (visitedAll statements ++
          (visitedOpt rescueClause ++ (visitedOpt elseClause ++ visitedOpt ensureClause)))
  | .rescueNode exceptions reference statements subsequent =>
      (enters, .rescueNode exceptions reference statements subsequent) ::
        (visitedAll exceptions ++
          (visitedOpt reference ++ (visitedAll statements ++ visitedOpt subsequent)))
  | .matchWrite test targets =>
      (enters, .matchWrite test targets) :: (test.visited false ++ visitedAll targets)
  | .capturePattern value target =>
      (enters, .capturePattern value target) :: (value.visited true ++ target.visited false)
  | .other children => (enters, .other children) :: visitedAll children

def visitedOpt : Option Node → List (Bool × Node)
  | none => []
  | some node => node.visited true

def visitedAll : List Node → List (Bool × Node)
  | [] => []
  | node :: rest => node.visited true ++ visitedAll rest

end

/-- The nodes that the walk of a body enters. -/
def entered (body : Node) : List Node :=
  ((body.visited true).filter Prod.fst).map Prod.snd

/-! ## The scan -/

def allocatingSelectors : List Text :=
  ["new".toList, "dup".toList, "clone".toList]

/-- `unary_plus_string`. -/
def unaryPlusString (receiver : Option Node) (name : Text) : Bool :=
  name == "+@".toList &&
    match receiver with
    | some .stringNode => true
    | _ => false

/-- `allocation`. -/
def allocation : Node → Bool
  | .arrayNode _ => true
  | .hashNode _ => true
  | .stringNode => true
  | .interpolatedString _ => true
  | .lambdaNode _ _ => true
  | .call receiver name _ _ => name ∈ allocatingSelectors || unaryPlusString receiver name
  | _ => false

/-- `stored_value`. -/
def storedValue : Node → Option Node
  | .assocNode _ value => some value
  | .variableWrite _ value => some value
  | _ => none

/-- `as_block_argument_node`. -/
def blockExpression : Option Node → Option Node
  | some (.blockArgument expression) => expression
  | _ => none

/-- The name of a bare read. -/
def readName : Node → Option Text
  | .localVariableRead name => some name
  | _ => none

end Node

open Node

abbrev NameSet := ExtTreeSet Text Text.cmp

structure OwnershipScan where
  /-- Whether each assignment of a name was an allocation. -/
  assignments : ExtTreeMap Text (List Bool) Text.cmp := ∅
  escaped : NameSet := ∅

namespace OwnershipScan

def noteRead (scan : OwnershipScan) (node : Option Node) : OwnershipScan :=
  match node.bind readName with
  | some name => { scan with escaped := scan.escaped.insert name }
  | none => scan

def noteReads (scan : OwnershipScan) (list : List Node) : OwnershipScan :=
  list.foldl (fun scan node => scan.noteRead (some node)) scan

def assign (scan : OwnershipScan) (name : Text) (allocated : Bool) : OwnershipScan :=
  { scan with assignments := scan.assignments.alter name fun held => some (held.getD [] ++ [allocated]) }

def recordAssignment (scan : OwnershipScan) : Node → OwnershipScan
  | .localVariableWrite name value => (scan.assign name (allocation value)).noteRead (some value)
  | .localVariableUpdate _ name _ => scan.assign name false
  | .localVariableTarget name => scan.assign name false
  | _ => scan

def recordEscapes (scan : OwnershipScan) : Node → OwnershipScan
  | .call _ _ arguments block => (scan.noteReads arguments).noteRead (blockExpression block)
  | .returnNode arguments => scan.noteReads arguments
  | .arrayNode elements => scan.noteReads elements
  | node => scan.noteRead (storedValue node)

def record (scan : OwnershipScan) (node : Node) : OwnershipScan :=
  (scan.recordAssignment node).recordEscapes node

end OwnershipScan

/-- `trailing_read`. -/
def trailingRead : Node → Option Text
  | .statementsNode body => body.getLast?.bind readName
  | body => readName body

def ownedLocals (body : Option Node) (parameters : NameSet) : NameSet :=
  match body with
  | none => ∅
  | some body =>
      let scan := body.entered.foldl OwnershipScan.record {}
      let escaped := (trailingRead body).elim scan.escaped scan.escaped.insert
      ExtTreeSet.ofList ((scan.assignments.toList.filter fun (name, allocations) =>
        !escaped.contains name && !parameters.contains name && allocations.all id).map Prod.fst) _

/-! ## Positions that let a value out of the frame -/

namespace Node

/-- The children of a node that the scan takes for escapes. -/
def seen : Node → List Node
  | .call _ _ arguments block => arguments ++ (blockExpression block).toList
  | .returnNode arguments => arguments
  | .arrayNode elements => elements
  | .assocNode _ value => [value]
  | .variableWrite _ value => [value]
  | .localVariableWrite _ value => [value]
  | _ => []

/-- The other children of a node whose values leave the frame. -/
def unseen : Node → List Node
  | .yieldNode arguments => arguments
  | .superNode arguments block => arguments ++ (blockExpression block).toList
  | .breakNode arguments => arguments
  | .nextNode arguments => arguments
  | .callUpdate _ _ _ value => [value]
  | .indexUpdate _ _ arguments block value => arguments ++ (blockExpression block).toList ++ [value]
  | .localVariableUpdate _ _ value => [value]
  | .variableUpdate _ _ value => [value]
  | .constantPathWrite _ value => [value]
  | .constantPathUpdate _ _ value => [value]
  | .assocNode key _ => [key]
  | _ => []

/-- The children of a node whose values leave the frame: what it passes to a callee or to the
caller, what it stores in a variable, and the elements of a collection. -/
def leaving : Node → List Node
  | .call _ _ arguments block => arguments ++ (blockExpression block).toList
  | .callUpdate _ _ _ value => [value]
  | .indexUpdate _ _ arguments block value => arguments ++ (blockExpression block).toList ++ [value]
  | .yieldNode arguments => arguments
  | .superNode arguments block => arguments ++ (blockExpression block).toList
  | .returnNode arguments => arguments
  | .breakNode arguments => arguments
  | .nextNode arguments => arguments
  | .variableWrite _ value => [value]
  | .variableUpdate _ _ value => [value]
  | .constantPathWrite _ value => [value]
  | .constantPathUpdate _ _ value => [value]
  | .localVariableWrite _ value => [value]
  | .localVariableUpdate _ _ value => [value]
  | .arrayNode elements => elements
  | .assocNode key value => [key, value]
  | _ => []

mutual

/-- The bare reads that can be the value of a node, through parentheses and conditionals. -/
def tails : Node → List Text
  | .localVariableRead name => [name]
  | .statementsNode body => lastTails body
  | .parenthesesNode body => tailsOpt body
  | .ifNode _ statements subsequent => lastTails statements ++ tailsOpt subsequent
  | .unlessNode _ statements elseClause => lastTails statements ++ tailsOpt elseClause
  | .elseNode statements => lastTails statements
  | .caseNode _ conditions elseClause => tailsAll conditions ++ tailsOpt elseClause
  | .whenNode _ statements => lastTails statements
  | .inNode _ statements => lastTails statements
  | .beginNode statements rescueClause elseClause _ =>
      (if elseClause.isNone then lastTails statements else []) ++ tailsOpt rescueClause ++
        tailsOpt elseClause
  | .rescueNode _ _ statements subsequent => lastTails statements ++ tailsOpt subsequent
  | _ => []

def tailsOpt : Option Node → List Text
  | none => []
  | some node => node.tails

def tailsAll : List Node → List Text
  | [] => []
  | node :: rest => node.tails ++ tailsAll rest

def lastTails : List Node → List Text
  | [] => []
  | [node] => node.tails
  | _ :: rest => lastTails rest

end

/-- A bare read of the name stands where its value leaves the frame. -/
def Escapes (body : Node) (name : Text) : Prop :=
  (∃ entry ∈ body.visited true, .localVariableRead name ∈ entry.2.leaving) ∨ name ∈ body.tails

/-- The scan sees that the value of the name leaves the frame. -/
def Seen (body : Node) (name : Text) : Prop :=
  (∃ node ∈ body.entered, .localVariableRead name ∈ node.seen) ∨ trailingRead body = some name

/-- The value of the name leaves the frame in a position that the scan does not see: a kind that it
does not know, the call of a match, or a tail below the last statement. -/
def Unseen (body : Node) (name : Text) : Prop :=
  (∃ entry ∈ body.visited true, .localVariableRead name ∈ entry.2.unseen) ∨
  (∃ entry ∈ body.visited true, entry.1 = false ∧ .localVariableRead name ∈ entry.2.seen) ∨
  (name ∈ body.tails ∧ trailingRead body ≠ some name)

theorem mem_leaving_iff {node child : Node} :
    child ∈ node.leaving ↔ child ∈ node.seen ∨ child ∈ node.unseen := by
  cases node <;> simp [leaving, seen, unseen, or_comm]

theorem mem_entered {body node : Node} : node ∈ body.entered ↔ (true, node) ∈ body.visited true := by
  simp [entered]

theorem readName_eq_some_iff {node : Node} {name : Text} :
    readName node = some name ↔ node = .localVariableRead name := by
  cases node <;> simp [readName]

theorem mem_lastTails {body : List Node} {node : Node} (last : body.getLast? = some node) {name : Text}
    (mem : name ∈ node.tails) : name ∈ lastTails body := by
  induction body with
  | nil => contradiction
  | cons first rest ih =>
      cases rest with
      | nil =>
          cases last
          rw [lastTails]
          exact mem
      | cons second rest =>
          rw [lastTails]
          · exact ih last
          · rintro ⟨⟩

theorem mem_tails_of_trailingRead {body : Node} {name : Text} (trailing : trailingRead body = some name) :
    name ∈ body.tails := by
  unfold trailingRead at trailing
  split at trailing
  · next list =>
    rcases Option.bind_eq_some_iff.mp trailing with ⟨node, last, read⟩
    rw [tails]
    apply mem_lastTails last
    rw [readName_eq_some_iff.mp read, tails]
    exact List.mem_singleton_self name
  · rw [readName_eq_some_iff.mp trailing, tails]
    exact List.mem_singleton_self name

theorem escapes_iff {body : Node} {name : Text} : body.Escapes name ↔ body.Seen name ∨ body.Unseen name := by
  constructor
  · rintro (⟨⟨enters, node⟩, mem, leaves⟩ | tail)
    · rcases mem_leaving_iff.mp leaves with isSeen | isUnseen
      · cases enters with
        | true => exact .inl (.inl ⟨node, mem_entered.mpr mem, isSeen⟩)
        | false => exact .inr (.inr (.inl ⟨_, mem, rfl, isSeen⟩))
      · exact .inr (.inl ⟨_, mem, isUnseen⟩)
    · by_cases direct : trailingRead body = some name
      · exact .inl (.inr direct)
      · exact .inr (.inr (.inr ⟨tail, direct⟩))
  · rintro ((⟨node, mem, isSeen⟩ | trailing) | ⟨entry, mem, isUnseen⟩ | ⟨entry, mem, -, isSeen⟩ | ⟨tail, -⟩)
    · exact .inl ⟨_, mem_entered.mp mem, mem_leaving_iff.mpr (.inl isSeen)⟩
    · exact .inr (mem_tails_of_trailingRead trailing)
    · exact .inl ⟨entry, mem, mem_leaving_iff.mpr (.inr isUnseen)⟩
    · exact .inl ⟨entry, mem, mem_leaving_iff.mpr (.inl isSeen)⟩
    · exact .inr tail

/-- The local that a node assigns, and whether to an allocation. -/
def assigned : Node → Option (Text × Bool)
  | .localVariableWrite name value => some (name, allocation value)
  | .localVariableUpdate _ name _ => some (name, false)
  | .localVariableTarget name => some (name, false)
  | _ => none

/-- The local is assigned, and only to allocations. -/
def Allocated (body : Node) (name : Text) : Prop :=
  (∃ allocated, (name, allocated) ∈ body.entered.filterMap assigned) ∧
    ∀ allocated, (name, allocated) ∈ body.entered.filterMap assigned → allocated = true

end Node

/-! ## What the scan finds -/

namespace OwnershipScan

variable {scan : OwnershipScan} {name : Text}

@[simp]
theorem assignments_noteRead (node : Option Node) : (scan.noteRead node).assignments = scan.assignments := by
  unfold noteRead
  split <;> rfl

theorem mem_noteRead {node : Option Node} :
    name ∈ (scan.noteRead node).escaped ↔ node = some (.localVariableRead name) ∨ name ∈ scan.escaped := by
  have reads : ∀ found, node.bind readName = some found ↔ node = some (.localVariableRead found) := by
    intro found
    simp [Option.bind_eq_some_iff, readName_eq_some_iff]
  unfold noteRead
  split
  · next found read =>
    rw [ExtTreeSet.mem_insert, LawfulEqCmp.compare_eq_iff_eq, (reads found).mp read]
    simp
  · next nothing =>
    rw [or_iff_right]
    intro read
    rw [(reads name).mpr read] at nothing
    contradiction

@[simp]
theorem assignments_noteReads (list : List Node) : (scan.noteReads list).assignments = scan.assignments := by
  induction list generalizing scan with
  | nil => rfl
  | cons node rest ih => exact ih.trans (assignments_noteRead _)

theorem mem_noteReads {list : List Node} :
    name ∈ (scan.noteReads list).escaped ↔ .localVariableRead name ∈ list ∨ name ∈ scan.escaped := by
  induction list generalizing scan with
  | nil => simp [noteReads]
  | cons node rest ih =>
      have first : name ∈ ((scan.noteRead (some node)).noteReads rest).escaped ↔ _ := ih
      rw [mem_noteRead, Option.some.injEq] at first
      rw [List.mem_cons, eq_comm, or_assoc, or_left_comm]
      exact first

theorem assignments_record (node : Node) :
    (scan.record node).assignments =
      (node.assigned.elim scan fun entry => scan.assign entry.1 entry.2).assignments := by
  cases node <;> simp [record, recordEscapes, recordAssignment, assigned]

theorem mem_record {node : Node} :
    name ∈ (scan.record node).escaped ↔ .localVariableRead name ∈ node.seen ∨ name ∈ scan.escaped := by
  cases node with
  | call receiver called arguments block =>
      simp only [record, recordAssignment, recordEscapes, seen, mem_noteRead, mem_noteReads, List.mem_append,
        Option.mem_toList]
      rw [or_assoc, or_left_comm]
  | _ =>
      simp [record, recordAssignment, recordEscapes, seen, mem_noteRead, mem_noteReads, storedValue, assign,
        eq_comm]

theorem mem_scan {nodes : List Node} :
    name ∈ (nodes.foldl record scan).escaped ↔
      (∃ node ∈ nodes, .localVariableRead name ∈ node.seen) ∨ name ∈ scan.escaped := by
  induction nodes generalizing scan with
  | nil => simp
  | cons node rest ih =>
      rw [List.foldl_cons, ih, mem_record, List.exists_mem_cons_iff, or_assoc, or_left_comm]

/-- What these assignments record of a name. -/
def allocationsOf (name : Text) (entries : List (Text × Bool)) : List Bool :=
  (entries.filter fun entry => entry.1 = name).map Prod.snd

theorem mem_allocationsOf {entries : List (Text × Bool)} {allocated : Bool} :
    allocated ∈ allocationsOf name entries ↔ (name, allocated) ∈ entries := by
  simp [allocationsOf]

theorem getD_scan (nodes : List Node) :
    (nodes.foldl record scan).assignments[name]?.getD [] =
      scan.assignments[name]?.getD [] ++ allocationsOf name (nodes.filterMap assigned) := by
  induction nodes generalizing scan with
  | nil => simp [allocationsOf]
  | cons node rest ih =>
      rw [List.foldl_cons, ih, assignments_record, List.filterMap_cons]
      cases assigned node with
      | none => rfl
      | some entry =>
          rw [Option.elim_some, assign, ExtTreeMap.getElem?_alter]
          by_cases same : entry.1 = name
          · simp [allocationsOf, same]
          · simp [allocationsOf, same]

theorem mem_assignments_scan (nodes : List Node) :
    name ∈ (nodes.foldl record scan).assignments ↔
      name ∈ scan.assignments ∨ ∃ allocated, (name, allocated) ∈ nodes.filterMap assigned := by
  induction nodes generalizing scan with
  | nil => simp
  | cons node rest ih =>
      rw [List.foldl_cons, ih, assignments_record, List.filterMap_cons]
      cases assigned node with
      | none => rfl
      | some entry =>
          rcases entry with ⟨found, allocated⟩
          rw [Option.elim_some, assign, ExtTreeMap.mem_alter]
          simp only [LawfulEqCmp.compare_eq_iff_eq, List.mem_cons, Prod.mk.injEq]
          by_cases same : found = name
          · simp [same]
          · simp [same, Ne.symm same]

theorem allocated_iff {body : Node} : body.Allocated name ↔
    ∃ allocations, (body.entered.foldl record {}).assignments[name]? = some allocations ∧
      allocations.all id = true := by
  have isKey : name ∈ (body.entered.foldl record {}).assignments ↔
      ∃ allocated, (name, allocated) ∈ body.entered.filterMap assigned := by
    rw [mem_assignments_scan]
    simp
  have whole : (body.entered.foldl record {}).assignments[name]?.getD [] =
      allocationsOf name (body.entered.filterMap assigned) := by
    rw [getD_scan]
    simp
  rw [Allocated, ← isKey, ExtTreeMap.mem_iff_isSome_getElem?, Option.isSome_iff_exists]
  constructor
  · rintro ⟨⟨allocations, found⟩, all⟩
    rw [found, Option.getD_some] at whole
    refine ⟨allocations, found, List.all_eq_true.mpr fun allocated mem => all allocated ?_⟩
    rwa [← mem_allocationsOf, ← whole]
  · rintro ⟨allocations, found, all⟩
    rw [found, Option.getD_some] at whole
    refine ⟨⟨allocations, found⟩, fun allocated mem => List.all_eq_true.mp all allocated ?_⟩
    rwa [whole, mem_allocationsOf]

end OwnershipScan

/-- Owned are the locals that are only assigned allocations and do not escape where the scan looks. -/
theorem mem_ownedLocals_iff {body : Node} {parameters : NameSet} {name : Text} :
    name ∈ ownedLocals (some body) parameters ↔
      body.Allocated name ∧ ¬ body.Seen name ∧ name ∉ parameters := by
  let scan : OwnershipScan := body.entered.foldl OwnershipScan.record {}
  let escaped := (trailingRead body).elim scan.escaped scan.escaped.insert
  have isEscaped : name ∈ escaped ↔ body.Seen name := by
    have fromScan : name ∈ scan.escaped ↔ ∃ node ∈ body.entered, .localVariableRead name ∈ node.seen := by
      rw [OwnershipScan.mem_scan]
      simp
    rw [Seen, ← fromScan]
    cases trailing : trailingRead body with
    | none => simp [escaped, trailing]
    | some read =>
        simp only [escaped, trailing, Option.elim_some, ExtTreeSet.mem_insert, LawfulEqCmp.compare_eq_iff_eq,
          Option.some.injEq]
        exact or_comm
  rw [← isEscaped, OwnershipScan.allocated_iff, ownedLocals, ExtTreeSet.mem_ofList, List.contains_iff_mem]
  simp only [List.mem_map, List.mem_filter, Prod.exists, exists_and_right, exists_eq_right,
    ExtTreeMap.mem_toList_iff_getElem?_eq_some, Bool.and_eq_true, Bool.not_eq_true', ← Bool.not_eq_true,
    ExtTreeSet.contains_iff_mem]
  constructor
  · rintro ⟨allocations, found, ⟨apart, noParameter⟩, all⟩
    exact ⟨⟨allocations, found, all⟩, apart, noParameter⟩
  · rintro ⟨⟨allocations, found, all⟩, apart, noParameter⟩
    exact ⟨allocations, found, ⟨apart, noParameter⟩, all⟩

/-- `b = []`, `yield b`, and a last statement. -/
def yieldBody : Node :=
  .statementsNode
    [.localVariableWrite ['b'] (.arrayNode []), .yieldNode [.localVariableRead ['b']], .other []]

end Rigor.Cli.Effects.Ownership
