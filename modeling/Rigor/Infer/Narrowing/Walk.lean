import Rigor.Infer.Narrowing.Guards

/-!
# The class narrowing walk

The walk threads the types and the facts of the locals through a method body and records the
calls on a narrowed local and on a local that no value inhabits.
-/

namespace Rigor.Infer.Narrowing

structure Env where
  types : Types
  facts : Facts

/-- A recorded call: narrowed to a class, or dead. -/
inductive Use where
  | narrowed (id : Nat) (className : Text)
  | dead (id : Nat)
  deriving DecidableEq

/-- `widen_flow_writes`. -/
def Types.widen (types : Types) (names : List Text) : Types :=
  fun name => if name ∈ names then some .dynamic else types name

/-- The use of a local receiver. -/
def useOf (id : Nat) (receiver : Option Node) (safeNav : Bool) (facts : Facts) : List Use :=
  match receiver.bind bareLocal with
  | none => []
  | some name =>
      match facts name with
      | some .bot | some .widened => [.dead id]
      | some (.narrowed className) => if safeNav then [] else [.narrowed id className]
      | none => []

/-- The facts carried past an `if` of which one branch exits: those of the other edge, for
locals that the `if` does not write. -/
def carriedGuards (guards : GuardMap) (written : List Text) : GuardMap :=
  guards.filter fun entry => entry.1 ∉ written

/-- The two edges of an `if` in the order of its branches. -/
def branchGuards (index : Index) (predicate : Node) (isUnless : Bool) : GuardMap × GuardMap :=
  if isUnless then (index.edgesOf predicate).swap else index.edgesOf predicate

/-- The guards that hold after an `if` in statement position. -/
def propagated (guards : GuardMap × GuardMap) (thenEnds elseEnds : Bool) (written : List Text) :
    GuardMap :=
  if thenEnds = elseEnds then []
  else carriedGuards (if elseEnds then guards.1 else guards.2) written

section Joins

variable (index : Index) (coarse : List Text)

/-- The facts after an `if`, from those after its predicate and those of its branches. -/
def joinIf (types : Types) (before thenEdge elseEdge : Facts) (thenEnds elseEnds : Bool)
    (carried : GuardMap) (written : List Text) : Facts :=
  let edges := [thenEdge, elseEdge]
  let joined := (before.join edges).retain before edges written
  let widened :=
    joined.propagateWidened [(thenEdge, thenEnds), (elseEdge, elseEnds)] written
  applyGuards index coarse types carried []
    (widened.restore before (carried.map Prod.fst))

/-- The local that a `case` narrows and the local whose carrier it may collapse. -/
def caseSubject (types : Types) (subject : Option Node) (position : Bool) :
    Option Text × Option Text :=
  let name := if position then subject.bind bareLocal else none
  (name.filter fun name => name ∉ coarse && untypedLocal types name, name)

/-- The facts a `when` clause starts with. -/
def clauseFacts (types : Types) (subject collapsing : Option Text) (constant : Text)
    (facts : Facts) : Facts :=
  let className := index.resolvedStaticConstant (.constantRead constant)
  match subject, collapsing with
  | some name, _ =>
      match className with
      | none => facts
      | some className =>
          if facts name ≠ none ∧ facts name ≠ some (.narrowed className) then facts.kill name
          else Function.update facts name (some (.narrowed className))
  | none, some name =>
      match className.bind fun className =>
          index.guardMeetPrecise types facts name className false with
      | some .widened => Function.update facts name (some .widened)
      | some .bot => Function.update facts name (some .bot)
      | _ => facts
  | none, none => facts

/-- The facts after a `case`, from those after its subject and those of its branches. -/
def joinCase (before : Facts) (edges : List (Facts × Bool)) (subjects : List Text)
    (written : List Text) : Facts :=
  let joined := before.join (edges.map Prod.fst)
  let retained := joined.retain before (edges.map Prod.fst) written
  ((retained.replace joined subjects).propagateWidened edges written).killAll written

end Joins

section Walk

variable (index : Index) (coarse : List Text)

mutual

/-- `class_flow_stmt` and `class_flow_expr`: a node as a statement or as an expression. -/
def walk : Node → (stmt position blocked : Bool) → Env → Env × List Use
  | .localWrite name value, stmt, position, blocked, env =>
      let rhs := walk value false (stmt && position) blocked env
      ({ types := Function.update rhs.1.types name (some (index.typeOf rhs.1.types value))
         facts := rhs.1.facts.kill name }, rhs.2)
  | .localOpWrite name value, stmt, position, blocked, env =>
      let rhs := walk value false (stmt && position) blocked env
      ({ types := Function.update rhs.1.types name (some .dynamic)
         facts := rhs.1.facts.kill name }, rhs.2)
  | .multiWrite targets value, stmt, position, blocked, env =>
      let rhs := walk value false (stmt && position) blocked env
      let carrier := index.typeOf rhs.1.types value
      ({ types := fun name =>
           if name ∈ targets then some (index.bindTarget carrier name) else rhs.1.types name
         facts := rhs.1.facts.killAll targets }, rhs.2)
  | .call id receiver method args safeNav, _, _, blocked, env =>
      let inner := walkOpt receiver blocked env
      let rest := walkList args false false blocked inner.1
      let written :=
        writesIn index.floored (nodes (.call id receiver method args safeNav) blocked)
      ({ rest.1 with facts := rest.1.facts.killNarrowed written },
        inner.2 ++ (useOf id receiver safeNav inner.1.facts ++ rest.2))
  | .logical isAnd left right, stmt, _, blocked, env =>
      let first := walk left false false blocked env
      let second := walk right false false blocked first.1
      let written := writesIn index.floored (nodes (.logical isAnd left right) blocked)
      ({ types := if stmt then second.1.types.widen written else second.1.types
         facts := second.1.facts.killNarrowed written }, first.2 ++ second.2)
  | .cond predicate thenBody elseBody isUnless, stmt, position, blocked, env =>
      let inner := walk predicate false false blocked env
      let guards := branchGuards index predicate isUnless
      let types := inner.1.types
      let facts := inner.1.facts
      let thenWalk := walkList thenBody true (stmt && position) blocked
        { types, facts := applyGuards index coarse types guards.1 [] facts }
      let elseWalk := walkList elseBody true (stmt && position) blocked
        { types, facts := applyGuards index coarse types guards.2 [] facts }
      let written :=
        writesIn index.floored (nodes (.cond predicate thenBody elseBody isUnless) blocked)
      let thenEnds := branchTerminates thenBody
      let elseEnds := branchTerminates elseBody
      let carried := if stmt && position then propagated guards thenEnds elseEnds written else []
      ({ types := types.widen written
         facts := joinIf index coarse (types.widen written) facts thenWalk.1.facts
           elseWalk.1.facts thenEnds elseEnds carried written },
        inner.2 ++ (thenWalk.2 ++ elseWalk.2))
  | .case_ subject branches elseBody, _, position, blocked, env =>
      let inner := walkOpt subject blocked env
      let names := caseSubject coarse inner.1.types subject position
      let clauses := walkBranches branches names position blocked inner.1
      let elseWalk := walkList elseBody true position blocked inner.1
      let written := writesIn index.floored (nodes (.case_ subject branches elseBody) blocked)
      ({ types := inner.1.types.widen written
         facts := joinCase inner.1.facts
           (clauses.1 ++ [(elseWalk.1.facts, branchTerminates elseBody)])
           (names.1.toList ++ names.2.toList) written },
        inner.2 ++ (clauses.2 ++ elseWalk.2))
  | .beginRescue mainBody clauses elseBody ensureBody, _, position, blocked, env =>
      let start := { env with facts := env.facts.killAll (boundNames clauses) }
      let main := walkList mainBody true position blocked start
      let rescues := walkClauses clauses position blocked main.1
      let elseWalk := walkList elseBody true position blocked rescues.1
      let ensure := walkList ensureBody true position blocked elseWalk.1
      let written := writesIn index.floored
        (nodes (.beginRescue mainBody clauses elseBody ensureBody) blocked)
      ({ types := ensure.1.types.widen written
         facts := ensure.1.facts.join [] },
        main.2 ++ (rescues.2 ++ (elseWalk.2 ++ ensure.2)))
  | .ret values, stmt, _, blocked, env =>
      if stmt then walkList values false false blocked env else (env, [])
  | .jump values, _, position, blocked, env => walkList values true position blocked env
  | .jumpLeaf, stmt, _, _, env =>
      (if stmt then { env with facts := env.facts.join [] } else env, [])
  | .localRead _, _, _, _, env => (env, [])
  | .variableRead, _, _, _, env => (env, [])
  | .constantRead _, _, _, _, env => (env, [])
  | .nilLit, _, _, _, env => (env, [])
  | .leaf, _, _, _, env => (env, [])

/-- A receiver or the subject of a `case`. -/
def walkOpt : Option Node → (blocked : Bool) → Env → Env × List Use
  | none, _, env => (env, [])
  | some node, blocked, env => walk node false false blocked env

/-- `class_flow_scope`, and the arguments of a call. -/
def walkList : List Node → (stmt position blocked : Bool) → Env → Env × List Use
  | [], _, _, _, env => (env, [])
  | node :: rest, stmt, position, blocked, env =>
      let first := walk node stmt position blocked env
      let others := walkList rest stmt position blocked first.1
      (others.1, first.2 ++ others.2)

/-- The edges of the `when` clauses, each with whether its body exits. -/
def walkBranches : List Branch → Option Text × Option Text → (position blocked : Bool) → Env →
    List (Facts × Bool) × List Use
  | [], _, _, _, _ => ([], [])
  | .mk constant body :: rest, names, position, blocked, env =>
      let clause := walkList body true position blocked
        { env with facts := clauseFacts index env.types names.1 names.2 constant env.facts }
      let others := walkBranches rest names position blocked env
      ((clause.1.facts, branchTerminates body) :: others.1, clause.2 ++ others.2)

/-- The exceptions and bodies of the clauses, one after another. -/
def walkClauses : List Clause → (position blocked : Bool) → Env → Env × List Use
  | [], _, _, env => (env, [])
  | .mk within _ exceptions body :: rest, position, blocked, env =>
      let tests := walkList exceptions true position (blocked || within) env
      let inner := walkList body true position (blocked || within) tests.1
      let others := walkClauses rest position blocked inner.1
      (others.1, tests.2 ++ (inner.2 ++ others.2))

end

end Walk

/-- A method body.  Its call nodes have distinct ids, and no void expression is the value of an
assignment or of a `return`: Ruby does not parse that. -/
structure MethodBody where
  stmts : List Node
  distinct : (callIdsIn (nodesList stmts false)).Nodup
  valued : ∀ entry ∈ nodesList stmts false, ∀ value ∈ entry.2.values, value.isVoid = false

structure ClassNarrowing where
  calls : List (Nat × Text)
  dead : List Nat

/-- What the walk of a body records. -/
def usesOf (index : Index) (body : List Node) : List Use :=
  (walkList index (coarseLocals body) body true true false
    { types := fun _ => none, facts := fun _ => none }).2

/-- `class_narrowing_pass` for a method body. -/
def classNarrowingPass (index : Index) (body : MethodBody) : ClassNarrowing :=
  let uses := usesOf index body.stmts
  { calls := uses.filterMap fun
      | .narrowed id className => some (id, className)
      | .dead _ => none
    dead := uses.filterMap fun
      | .dead id => some id
      | .narrowed _ _ => none }

end Rigor.Infer.Narrowing
