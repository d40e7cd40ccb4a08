import Mathlib.Data.List.Basic
import Rigor.Text

/-!
# Method bodies under class narrowing

The nodes of a method body that the class narrowing walks, without blocks and loops.  The
`else` of an `if` stands without its carrier.  A clause of a `begin` is blocked if the parser
lowered it as a position whose writes land nowhere: an arm without a `begin` keyword that
always exits.
-/

namespace Rigor.Infer.Narrowing

mutual

inductive Node where
  | localRead (name : Text)
  | variableRead
  | constantRead (name : Text)
  | nilLit
  /-- A literal or `self`. -/
  | leaf
  | localWrite (name : Text) (value : Node)
  | localOpWrite (name : Text) (value : Node)
  | multiWrite (targets : List Text) (value : Node)
  | call (id : Nat) (receiver : Option Node) (method : Text) (args : List Node) (safeNav : Bool)
  | logical (isAnd : Bool) (left right : Node)
  | cond (predicate : Node) (thenBody elseBody : List Node) (isUnless : Bool)
  | case_ (subject : Option Node) (branches : List Branch) (elseBody : List Node)
  | beginRescue (mainBody : List Node) (clauses : List Clause) (elseBody ensureBody : List Node)
  | ret (values : List Node)
  /-- A `next` or `break` with values. -/
  | jump (values : List Node)
  | jumpLeaf

/-- A `when` of one constant. -/
inductive Branch where
  | mk (constant : Text) (body : List Node)

inductive Clause where
  | mk (blocked : Bool) (boundName : Option Text) (exceptions body : List Node)

end

instance : Inhabited Node :=
  ⟨.leaf⟩

namespace Clause

def blocked : Clause → Bool
  | .mk blocked _ _ _ => blocked

def boundName : Clause → Option Text
  | .mk _ boundName _ _ => boundName

def exceptions : Clause → List Node
  | .mk _ _ exceptions _ => exceptions

def body : Clause → List Node
  | .mk _ _ _ body => body

end Clause

/-- The names that the `=>` of the clauses bind. -/
def boundNames (clauses : List Clause) : List Text :=
  clauses.filterMap Clause.boundName

def bareLocal : Node → Option Text
  | .localRead name => some name
  | _ => none

mutual

/-- A node and all nodes below it, each with whether it is in a blocked position. -/
def nodes : Node → Bool → List (Bool × Node)
  | .localWrite name value, blocked => (blocked, .localWrite name value) :: nodes value blocked
  | .localOpWrite name value, blocked =>
      (blocked, .localOpWrite name value) :: nodes value blocked
  | .multiWrite targets value, blocked =>
      (blocked, .multiWrite targets value) :: nodes value blocked
  | .call id receiver method args safeNav, blocked =>
      (blocked, .call id receiver method args safeNav) ::
        (nodesOpt receiver blocked ++ nodesList args blocked)
  | .logical isAnd left right, blocked =>
      (blocked, .logical isAnd left right) :: (nodes left blocked ++ nodes right blocked)
  | .cond predicate thenBody elseBody isUnless, blocked =>
      (blocked, .cond predicate thenBody elseBody isUnless) ::
        (nodes predicate blocked ++ (nodesList thenBody blocked ++ nodesList elseBody blocked))
  | .case_ subject branches elseBody, blocked =>
      (blocked, .case_ subject branches elseBody) ::
        (nodesOpt subject blocked ++
          (nodesBranches branches blocked ++ nodesList elseBody blocked))
  | .beginRescue mainBody clauses elseBody ensureBody, blocked =>
      (blocked, .beginRescue mainBody clauses elseBody ensureBody) ::
        (nodesList mainBody blocked ++ (nodesClauses clauses blocked ++
          (nodesList elseBody blocked ++ nodesList ensureBody blocked)))
  | .ret values, blocked => (blocked, .ret values) :: nodesList values blocked
  | .jump values, blocked => (blocked, .jump values) :: nodesList values blocked
  | .localRead name, blocked => [(blocked, .localRead name)]
  | .variableRead, blocked => [(blocked, .variableRead)]
  | .constantRead name, blocked => [(blocked, .constantRead name)]
  | .nilLit, blocked => [(blocked, .nilLit)]
  | .leaf, blocked => [(blocked, .leaf)]
  | .jumpLeaf, blocked => [(blocked, .jumpLeaf)]

def nodesOpt : Option Node → Bool → List (Bool × Node)
  | none, _ => []
  | some node, blocked => nodes node blocked

def nodesList : List Node → Bool → List (Bool × Node)
  | [], _ => []
  | node :: rest, blocked => nodes node blocked ++ nodesList rest blocked

def nodesBranches : List Branch → Bool → List (Bool × Node)
  | [], _ => []
  | .mk _ body :: rest, blocked => nodesList body blocked ++ nodesBranches rest blocked

def nodesClauses : List Clause → Bool → List (Bool × Node)
  | [], _ => []
  | .mk within _ exceptions body :: rest, blocked =>
      nodesList exceptions (blocked || within) ++ (nodesList body (blocked || within) ++
        nodesClauses rest blocked)

end

theorem self_mem_nodes (node : Node) (blocked : Bool) : (blocked, node) ∈ nodes node blocked := by
  cases node <;> simp [nodes]

namespace Node

/-- The names an assignment node binds. -/
def binds : Node → List Text
  | .localWrite name _ | .localOpWrite name _ => [name]
  | .multiWrite targets _ => targets
  | _ => []

/-- The names the clauses of a `begin` bind. -/
def rescued : Node → List Text
  | .beginRescue _ clauses _ _ => boundNames clauses
  | _ => []

/-- `return`, `next` and `break`. -/
def isVoid : Node → Bool
  | .ret _ | .jump _ | .jumpLeaf => true
  | _ => false

/-- What an assignment or a `return` takes as a value. -/
def values : Node → List Node
  | .localWrite _ value | .localOpWrite _ value | .multiWrite _ value => [value]
  | .ret values => values
  | _ => []

def callId : Node → List Nat
  | .call id _ _ _ _ => [id]
  | _ => []

end Node

/-- The names that change in runs of these nodes. -/
def assignedIn (found : List (Bool × Node)) : List Text :=
  found.flatMap fun entry => entry.2.binds ++ entry.2.rescued

def callIdsIn (found : List (Bool × Node)) : List Nat :=
  found.flatMap fun entry => entry.2.callId

section Append

variable (front back : List (Bool × Node))

@[simp]
theorem assignedIn_append :
    assignedIn (front ++ back) = assignedIn front ++ assignedIn back :=
  List.flatMap_append

@[simp]
theorem callIdsIn_append : callIdsIn (front ++ back) = callIdsIn front ++ callIdsIn back :=
  List.flatMap_append

@[simp]
theorem assignedIn_nil : assignedIn [] = [] :=
  rfl

@[simp]
theorem callIdsIn_nil : callIdsIn [] = [] :=
  rfl

@[simp]
theorem assignedIn_cons (entry : Bool × Node) :
    assignedIn (entry :: back) = entry.2.binds ++ entry.2.rescued ++ assignedIn back :=
  List.flatMap_cons

@[simp]
theorem callIdsIn_cons (entry : Bool × Node) :
    callIdsIn (entry :: back) = entry.2.callId ++ callIdsIn back :=
  List.flatMap_cons

end Append

mutual

/-- `stmt_terminates`: the node exits the surrounding control flow. -/
def stmtTerminates : Node → Bool
  | .ret _ => true
  | .jump _ => true
  | .jumpLeaf => true
  | .call _ receiver method _ _ => receiver.isNone && method == "raise".toList
  | .beginRescue mainBody clauses elseBody ensureBody =>
      clauses.isEmpty && ensureBody.isEmpty &&
        if elseBody.isEmpty then branchTerminates mainBody else branchTerminates elseBody
  | _ => false

/-- `branch_terminates`: the last statement does. -/
def branchTerminates : List Node → Bool
  | [] => false
  | node :: rest => if rest.isEmpty then stmtTerminates node else branchTerminates rest

end

end Rigor.Infer.Narrowing
