import Rigor.Infer.Narrowing.Walk

/-!
# What the walk keeps

The walk records ids of calls below the node it walks.  Outside the reach of an `if` that
carries a guard past it, the facts after a node narrow no local that the node assigns and none
that was not narrowed before.
-/

namespace Rigor.Infer.Narrowing

variable {index : Index} {coarse : List Text}

/-! ### The recorded ids -/

/-- The narrowed calls of the list have these ids. -/
def UsesWithin (uses : List Use) (ids : List Nat) : Prop :=
  ∀ id className, Use.narrowed id className ∈ uses → id ∈ ids

namespace UsesWithin

variable {front back : List Use} {first second : List Nat}

theorem nil (ids : List Nat) : UsesWithin [] ids :=
  fun _ _ mem => nomatch mem

theorem append (left : UsesWithin front first) (right : UsesWithin back second) :
    UsesWithin (front ++ back) (first ++ second) := by
  intro id className mem
  rcases List.mem_append.mp mem with inFront | inBack
  · exact List.mem_append_left _ (left id className inFront)
  · exact List.mem_append_right _ (right id className inBack)

theorem mono {uses : List Use} (within : UsesWithin uses first)
    (more : ∀ id ∈ first, id ∈ second) : UsesWithin uses second :=
  fun id className mem => more id (within id className mem)

end UsesWithin

theorem useOf_within (id : Nat) (receiver : Option Node) (safeNav : Bool) (facts : Facts) :
    UsesWithin (useOf id receiver safeNav facts) [id] := by
  intro other className mem
  unfold useOf at mem
  split at mem
  · nomatch mem
  · split at mem
    · simp at mem
    · simp at mem
    · split at mem
      · nomatch mem
      · simp at mem
        exact List.mem_singleton.mpr mem.1
    · nomatch mem

section Ids

variable (index : Index) (coarse : List Text)

mutual

theorem walk_within : ∀ (node : Node) (stmt position blocked : Bool) (env : Env),
    UsesWithin (walk index coarse node stmt position blocked env).2 (callIdsIn (nodes node blocked))
  | .localWrite _ value, stmt, position, blocked, env => by
      rw [walk, nodes]
      exact walk_within value false (stmt && position) blocked env
  | .localOpWrite _ value, stmt, position, blocked, env => by
      rw [walk, nodes]
      exact walk_within value false (stmt && position) blocked env
  | .multiWrite _ value, stmt, position, blocked, env => by
      rw [walk, nodes]
      exact walk_within value false (stmt && position) blocked env
  | .call id receiver method args safeNav, _, _, blocked, env => by
      rw [walk, nodes, callIdsIn_cons, callIdsIn_append]
      have inner := walkOpt_within receiver blocked env
      have rest := walkList_within args false false blocked (walkOpt index coarse receiver blocked env).1
      apply UsesWithin.mono
        (inner.append ((useOf_within id receiver safeNav _).append rest))
      intro other mem
      simp only [List.mem_append, List.mem_singleton, Node.callId] at mem ⊢
      rcases mem with inReceiver | same | inArgs
      · exact .inr (.inl inReceiver)
      · exact .inl same
      · exact .inr (.inr inArgs)
  | .logical _ left right, _, _, blocked, env => by
      rw [walk, nodes, callIdsIn_cons, callIdsIn_append]
      exact (walk_within left _ _ _ _).append (walk_within right _ _ _ _)
  | .cond predicate thenBody elseBody _, _, _, blocked, env => by
      rw [walk, nodes, callIdsIn_cons, callIdsIn_append, callIdsIn_append]
      exact (walk_within predicate _ _ _ _).append
        ((walkList_within thenBody _ _ _ _).append (walkList_within elseBody _ _ _ _))
  | .case_ subject branches elseBody, _, _, blocked, env => by
      rw [walk, nodes, callIdsIn_cons, callIdsIn_append, callIdsIn_append]
      exact (walkOpt_within subject _ _).append
        ((walkBranches_within branches _ _ _ _).append (walkList_within elseBody _ _ _ _))
  | .beginRescue mainBody clauses elseBody ensureBody, _, _, blocked, env => by
      rw [walk, nodes, callIdsIn_cons, callIdsIn_append, callIdsIn_append, callIdsIn_append]
      exact (walkList_within mainBody _ _ _ _).append ((walkClauses_within clauses _ _ _).append
        ((walkList_within elseBody _ _ _ _).append (walkList_within ensureBody _ _ _ _)))
  | .ret values, stmt, _, blocked, env => by
      rw [walk, nodes]
      split
      · exact walkList_within values false false blocked env
      · exact .nil _
  | .jump values, _, position, blocked, env => by
      rw [walk, nodes]
      exact walkList_within values true position blocked env
  | .jumpLeaf, _, _, _, _ => .nil _
  | .localRead _, _, _, _, _ => .nil _
  | .variableRead, _, _, _, _ => .nil _
  | .constantRead _, _, _, _, _ => .nil _
  | .nilLit, _, _, _, _ => .nil _
  | .leaf, _, _, _, _ => .nil _

theorem walkOpt_within : ∀ (node : Option Node) (blocked : Bool) (env : Env),
    UsesWithin (walkOpt index coarse node blocked env).2 (callIdsIn (nodesOpt node blocked))
  | none, _, _ => .nil _
  | some node, blocked, env => by
      rw [walkOpt, nodesOpt]
      exact walk_within node false false blocked env

theorem walkList_within : ∀ (list : List Node) (stmt position blocked : Bool) (env : Env),
    UsesWithin (walkList index coarse list stmt position blocked env).2
      (callIdsIn (nodesList list blocked))
  | [], _, _, _, _ => .nil _
  | node :: rest, stmt, position, blocked, env => by
      rw [walkList, nodesList, callIdsIn_append]
      exact (walk_within node stmt position blocked env).append (walkList_within rest _ _ _ _)

theorem walkBranches_within : ∀ (branches : List Branch) (names : Option Text × Option Text)
    (position blocked : Bool) (env : Env),
    UsesWithin (walkBranches index coarse branches names position blocked env).2
      (callIdsIn (nodesBranches branches blocked))
  | [], _, _, _, _ => .nil _
  | .mk _ body :: rest, names, position, blocked, env => by
      rw [walkBranches, nodesBranches, callIdsIn_append]
      exact (walkList_within body _ _ _ _).append (walkBranches_within rest names _ _ _)

theorem walkClauses_within : ∀ (clauses : List Clause) (position blocked : Bool) (env : Env),
    UsesWithin (walkClauses index coarse clauses position blocked env).2
      (callIdsIn (nodesClauses clauses blocked))
  | [], _, _, _ => .nil _
  | .mk within _ exceptions body :: rest, position, blocked, env => by
      rw [walkClauses, nodesClauses, callIdsIn_append, callIdsIn_append]
      exact (walkList_within exceptions _ _ _ _).append
        ((walkList_within body _ _ _ _).append (walkClauses_within rest _ _ _))

end

end Ids

/-! ### Guards and joins -/

/-- No coarse local is narrowed. -/
def Fine (coarse : List Text) (facts : Facts) : Prop :=
  ∀ name className, facts name = some (.narrowed className) → name ∉ coarse

theorem Fine.of_narrower {first second : Facts} (fine : Fine coarse second)
    (narrower : Narrower first second) : Fine coarse first :=
  fun name className narrowed => fine name className (narrower name className narrowed)

/-- The gate of a fresh narrowing. -/
theorem minted_or_same (types : Types) (name : Text) (guard : GuardFact) (facts : Facts)
    (className : Text) (single : guard.classes = [className]) :
    let minted :=
      if guard.mintable && name ∉ coarse && untypedLocal types name then
        Function.update facts name (some (.narrowed className))
      else facts
    (guard.classes = [className] ∧ guard.mintable = true ∧ name ∉ coarse ∧
      minted = Function.update facts name (some (.narrowed className))) ∨ minted = facts := by
  dsimp only
  split
  · rename_i gate
    simp only [Bool.and_eq_true, decide_eq_true_eq] at gate
    exact .inl ⟨single, gate.1.1, gate.1.2, rfl⟩
  · exact .inr rfl

/-- A guard sets its local to a fact that narrows nothing, refines a narrowing of it, narrows it
afresh, or leaves a local that is not narrowed alone. -/
theorem applyGuard_cases (types : Types) (conflicts : Bool) (name : Text) (guard : GuardFact)
    (facts : Facts) :
    (∃ fact : Option ClassFact, (∀ className, fact ≠ some (.narrowed className)) ∧
      applyGuard index coarse types conflicts name guard facts =
        Function.update facts name fact) ∨
    (∃ carrier, facts name = some (.narrowed carrier) ∧
      applyGuard index coarse types conflicts name guard facts =
        Function.update facts name (index.narrowNominalToClass carrier guard)) ∨
    (∃ className, guard.classes = [className] ∧ guard.mintable = true ∧ name ∉ coarse ∧
      applyGuard index coarse types conflicts name guard facts =
        Function.update facts name (some (.narrowed className))) ∨
    ((∀ className, facts name ≠ some (.narrowed className)) ∧
      applyGuard index coarse types conflicts name guard facts = facts) := by
  simp only [applyGuard]
  generalize (guard.classes.map fun className =>
    index.guardMeetPrecise types facts name className guard.exact) = met
  by_cases widened : some ClassFact.widened ∈ met
  · rw [if_pos widened]
    exact .inl ⟨some .widened, nofun, rfl⟩
  · rw [if_neg widened]
    by_cases collapses : met ≠ [] ∧ met.all (· = some .bot)
    · rw [if_pos collapses]
      exact .inl ⟨some .bot, nofun, rfl⟩
    · rw [if_neg collapses]
      cases conflicts with
      | true => exact .inl ⟨none, nofun, rfl⟩
      | false =>
          simp only [Bool.false_eq_true, ↓reduceIte]
          split
          · rename_i carrier found
            exact .inr (.inl ⟨carrier, found, rfl⟩)
          · rename_i className single notNarrowed
            rcases minted_or_same types name guard facts className single with minted | same
            · exact .inr (.inr (.inl ⟨className, minted⟩))
            · exact .inr (.inr (.inr ⟨fun other narrowed => notNarrowed other narrowed, same⟩))
          · rename_i notNarrowed _
            exact .inr (.inr (.inr ⟨fun other narrowed => notNarrowed other narrowed, rfl⟩))

/-- A narrowing after a guard was there before, refines a narrowing of its local, or is minted. -/
theorem narrowed_of_applyGuard {types : Types} {conflicts : Bool} {name other : Text}
    {guard : GuardFact} {facts : Facts} {className : Text}
    (narrowed : applyGuard index coarse types conflicts name guard facts other =
      some (.narrowed className)) :
    (other ≠ name ∧ facts other = some (.narrowed className)) ∨
      (other = name ∧ ∃ carrier, facts name = some (.narrowed carrier) ∧
        index.narrowNominalToClass carrier guard = some (.narrowed className)) ∨
      (other = name ∧ name ∉ coarse ∧ guard.mintable = true ∧ guard.classes = [className]) := by
  by_cases same : other = name
  · subst same
    rcases @applyGuard_cases index coarse types conflicts other guard facts with
      ⟨fact, notNarrowed, eq⟩ | ⟨carrier, found, eq⟩ | ⟨minted, single, mintable, fine, eq⟩ |
        ⟨notNarrowed, eq⟩
    · rw [eq, Function.update_self] at narrowed
      exact absurd narrowed (notNarrowed className)
    · rw [eq, Function.update_self] at narrowed
      exact .inr (.inl ⟨rfl, carrier, found, narrowed⟩)
    · rw [eq, Function.update_self, Option.some.injEq, ClassFact.narrowed.injEq] at narrowed
      exact .inr (.inr ⟨rfl, fine, mintable, narrowed ▸ single⟩)
    · rw [eq] at narrowed
      exact absurd narrowed (notNarrowed className)
  · refine .inl ⟨same, ?_⟩
    rcases @applyGuard_cases index coarse types conflicts name guard facts with
      ⟨_, _, eq⟩ | ⟨_, _, eq⟩ | ⟨_, _, _, _, eq⟩ | ⟨_, eq⟩
    · rwa [eq, Function.update_of_ne same] at narrowed
    · rwa [eq, Function.update_of_ne same] at narrowed
    · rwa [eq, Function.update_of_ne same] at narrowed
    · rwa [eq] at narrowed

/-- Guards on coarse locals narrow nothing. -/
theorem applyGuards_narrower {types : Types} {guards asserted : GuardMap} {facts : Facts}
    (allCoarse : ∀ entry ∈ guards, entry.1 ∈ coarse) (fine : Fine coarse facts) :
    Narrower (applyGuards index coarse types guards asserted facts) facts := by
  induction guards generalizing asserted facts with
  | nil => exact Narrower.refl facts
  | cons entry rest ih =>
      have isCoarse := allCoarse entry List.mem_cons_self
      have step : ∀ conflicts, Narrower
          (applyGuard index coarse types conflicts entry.1 entry.2 facts) facts := by
        intro conflicts name className narrowed
        rcases narrowed_of_applyGuard narrowed with ⟨_, before⟩ | ⟨_, carrier, before, _⟩ | minted
        · exact before
        · exact absurd isCoarse (fine entry.1 carrier before)
        · exact absurd isCoarse minted.2.1
      exact (ih (fun other mem => allCoarse other (List.mem_cons_of_mem _ mem))
        (fine.of_narrower (step _))).trans (step _)

section Joins

variable {before thenEdge elseEdge : Facts} {thenEnds elseEnds : Bool} {written : List Text}

/-- A narrowing that the joins of an `if` keep was there before, is not written and is on both
edges. -/
theorem narrowed_of_joined {name className : Text}
    (narrowed : ((before.join [thenEdge, elseEdge]).retain before [thenEdge, elseEdge]
      written).propagateWidened [(thenEdge, thenEnds), (elseEdge, elseEnds)] written name =
        some (.narrowed className)) :
    before name = some (.narrowed className) ∧ name ∉ written ∧
      thenEdge name = some (.narrowed className) ∧
        elseEdge name = some (.narrowed className) := by
  have kept := Narrower.propagateWidened _ _ _ name className narrowed
  rcases Narrower.of_retain kept with fromJoin | ⟨was, unwritten, edges⟩
  · exact absurd fromJoin (Narrower.join_ne _ _ _ _)
  · have onThen := edges thenEdge List.mem_cons_self
    have onElse := edges elseEdge (List.mem_cons_of_mem _ List.mem_cons_self)
    exact ⟨was, unwritten, onThen, onElse⟩

/-- An `if` that carries guards on coarse locals only narrows nothing anew. -/
theorem joinIf_spares {types : Types} {carried : GuardMap} (fine : Fine coarse before)
    (allCoarse : ∀ entry ∈ carried, entry.1 ∈ coarse) :
    Spares (joinIf index coarse types before thenEdge elseEdge thenEnds elseEnds carried written)
      before written := by
  have restored : Spares
      ((((before.join [thenEdge, elseEdge]).retain before [thenEdge, elseEdge]
        written).propagateWidened [(thenEdge, thenEnds), (elseEdge, elseEnds)] written).restore
          before (carried.map Prod.fst)) before written := by
    intro name className narrowed
    unfold Facts.restore at narrowed
    split at narrowed
    · rename_i inCarried
      rcases List.mem_map.mp inCarried.1 with ⟨entry, mem, rfl⟩
      exact absurd (allCoarse entry mem) (fine _ _ narrowed)
    · have kept := narrowed_of_joined narrowed
      exact ⟨kept.1, kept.2.1⟩
  exact .of_narrower
    (applyGuards_narrower allCoarse (fine.of_narrower restored.narrower)) restored

/-- A narrowing after a `case` was there before, is not written and is on every edge. -/
theorem narrowed_of_joinCase {edges : List (Facts × Bool)} {subjects : List Text}
    {name className : Text}
    (narrowed : joinCase before edges subjects written name = some (.narrowed className)) :
    before name = some (.narrowed className) ∧ name ∉ written ∧
      ∀ edge ∈ edges.map Prod.fst, edge name = some (.narrowed className) := by
  unfold joinCase at narrowed
  have kept := Narrower.killAll _ _ name className narrowed
  have replaced := Narrower.propagateWidened _ _ _ name className kept.1
  unfold Facts.replace at replaced
  split at replaced
  · exact absurd replaced (Narrower.join_ne _ _ _ _)
  · rcases Narrower.of_retain replaced with fromJoin | ⟨was, unwritten, onEdges⟩
    · exact absurd fromJoin (Narrower.join_ne _ _ _ _)
    · exact ⟨was, unwritten, onEdges⟩

end Joins

/-! ### What a calm node keeps -/

section Early

variable (index : Index) (coarse : List Text)

mutual

/-- The guards of an `if` are carried past the node: it is an `if` in statement position of
which one branch exits. -/
def early : Node → (stmt blocked : Bool) → Bool
  | .cond predicate thenBody elseBody isUnless, stmt, blocked =>
      stmt && (propagated (branchGuards index predicate isUnless) (branchTerminates thenBody)
        (branchTerminates elseBody) (writesIn index.floored
          (nodes (.cond predicate thenBody elseBody isUnless) blocked))).any fun entry =>
            entry.1 ∉ coarse
  | .jump values, _, blocked => earlyList values blocked
  | _, _, _ => false

def earlyList : List Node → (blocked : Bool) → Bool
  | [], _ => false
  | node :: rest, blocked => early node true blocked || earlyList rest blocked

end

end Early

theorem early_of_not_void {node : Node} (value : node.isVoid = false) (blocked : Bool) :
    early index coarse node false blocked = false := by
  cases node <;> simp_all [early, Node.isVoid]

/-- Names bound in a blocked position or by a clause are coarse. -/
structure Settled (coarse : List Text) (all : List (Bool × Node)) : Prop where
  blocked : ∀ node, (true, node) ∈ all → ∀ name ∈ node.binds, name ∈ coarse
  rescued : ∀ entry ∈ all, ∀ name ∈ entry.2.rescued, name ∈ coarse

/-- Facts that spare the written names spare the assigned ones. -/
theorem Spares.of_written {all found : List (Bool × Node)} {after before : Facts}
    (settled : Settled coarse all) (sub : found ⊆ all) (fine : Fine coarse before)
    (spares : Spares after before (writesIn index.floored found)) :
    Spares after before (assignedIn found) := by
  intro name className narrowed
  have kept := spares name className narrowed
  refine ⟨kept.1, fun assigned => ?_⟩
  rcases mem_writesIn_of_assigned assigned with written | ⟨node, mem, binds⟩ | ⟨entry, mem, bound⟩
  · exact kept.2 written
  · exact fine name className kept.1 (settled.blocked node (sub mem) name binds)
  · exact fine name className kept.1 (settled.rescued entry (sub mem) name bound)

/-- A calm `if` carries guards on coarse locals only. -/
theorem carried_coarse {predicate : Node} {thenBody elseBody : List Node}
    {isUnless stmt position blocked : Bool}
    (quiet : position = true →
      early index coarse (.cond predicate thenBody elseBody isUnless) stmt blocked = false) :
    ∀ entry ∈ (if stmt && position then
      propagated (branchGuards index predicate isUnless) (branchTerminates thenBody)
        (branchTerminates elseBody) (writesIn index.floored
          (nodes (.cond predicate thenBody elseBody isUnless) blocked)) else []),
      entry.1 ∈ coarse := by
  intro entry mem
  split at mem
  · rename_i both
    rw [Bool.and_eq_true] at both
    have calm := quiet both.2
    rw [early, both.1, Bool.true_and, List.any_eq_false] at calm
    have inCoarse := calm entry mem
    simpa using inCoarse
  · nomatch mem

/-- The names a walked node spares.  A `return` in an expression is not walked. -/
def sparedBy (node : Node) (stmt blocked : Bool) : List Text :=
  if stmt || !node.isVoid then assignedIn (nodes node blocked) else []

def sparedByList (list : List Node) (stmt blocked : Bool) : List Text :=
  list.flatMap fun node => sparedBy node stmt blocked

theorem sparedBy_stmt (node : Node) (blocked : Bool) :
    sparedBy node true blocked = assignedIn (nodes node blocked) :=
  rfl

theorem sparedBy_value {node : Node} (value : node.isVoid = false) (stmt blocked : Bool) :
    sparedBy node stmt blocked = assignedIn (nodes node blocked) := by
  simp [sparedBy, value]

/-- Statements, and values that are no jumps, spare all that they assign. -/
theorem sparedByList_eq (list : List Node) (stmt blocked : Bool)
    (each : stmt = true ∨ ∀ node ∈ list, node.isVoid = false) :
    sparedByList list stmt blocked = assignedIn (nodesList list blocked) := by
  induction list with
  | nil => rfl
  | cons node rest ih =>
      have first : sparedBy node stmt blocked = assignedIn (nodes node blocked) := by
        rcases each with isStmt | values
        · rw [isStmt, sparedBy_stmt]
        · exact sparedBy_value (values node List.mem_cons_self) stmt blocked
      have others := ih (each.imp_right fun values other mem =>
        values other (List.mem_cons_of_mem _ mem))
      rw [nodesList, assignedIn_append, ← first, ← others]
      exact List.flatMap_cons

/-- What the walk relies on of the nodes of a body. -/
structure Regular (coarse : List Text) (all : List (Bool × Node)) : Prop where
  settled : Settled coarse all
  valued : ∀ entry ∈ all, ∀ value ∈ entry.2.values, value.isVoid = false

section Calm

variable {all : List (Bool × Node)}

/-- A clause is calm if no statement of it carries a guard past it. -/
def calmClauses (index : Index) (coarse : List Text) (blocked : Bool) (clauses : List Clause) :
    Prop :=
  ∀ clause ∈ clauses,
    earlyList index coarse clause.exceptions (blocked || clause.blocked) = false ∧
      earlyList index coarse clause.body (blocked || clause.blocked) = false

/-- An assignment node spares its own names and those of its value. -/
theorem spares_write {name : Text} {value write : Node} {stmt blocked : Bool}
    {after before : Facts} (valued : value.isVoid = false)
    (shape : nodes write blocked = (blocked, write) :: nodes value blocked)
    (own : write.binds = [name] ∧ write.rescued = [] ∧ write.isVoid = false)
    (inner : Spares after before (sparedBy value false blocked)) :
    Spares (after.kill name) before (sparedBy write stmt blocked) := by
  rw [sparedBy_value valued] at inner
  rw [sparedBy_value own.2.2, shape, assignedIn_cons, own.1, own.2.1]
  intro other className narrowed
  have kept := inner other className (Narrower.kill after name other className narrowed)
  refine ⟨kept.1, fun mem => ?_⟩
  rcases List.mem_cons.mp mem with same | deeper
  · rw [same, Facts.kill, Function.update_self] at narrowed
    cases narrowed
  · exact kept.2 deeper

variable (regular : Regular coarse all)
include regular

set_option linter.unusedSectionVars false in
mutual

/-- If the walk carries no guard past a node, then the facts after it narrow no local that it
assigns and none that was not narrowed before. -/
theorem walk_spares : ∀ (node : Node) (stmt position blocked : Bool) (env : Env),
    nodes node blocked ⊆ all → (position = true → early index coarse node stmt blocked = false) →
    Fine coarse env.facts →
    Spares (walk index coarse node stmt position blocked env).1.facts env.facts
      (sparedBy node stmt blocked)
  | .localWrite name value, stmt, position, blocked, env, sub, _, fine => by
      rw [nodes] at sub
      have whole := List.cons_subset.mp sub
      have valued := regular.valued _ whole.1 value List.mem_cons_self
      rw [walk]
      exact spares_write valued (by rw [nodes]) ⟨rfl, rfl, rfl⟩
        (walk_spares value false (stmt && position) blocked env whole.2
          (fun _ => early_of_not_void valued blocked) fine)
  | .localOpWrite name value, stmt, position, blocked, env, sub, _, fine => by
      rw [nodes] at sub
      have whole := List.cons_subset.mp sub
      have valued := regular.valued _ whole.1 value List.mem_cons_self
      rw [walk]
      exact spares_write valued (by rw [nodes]) ⟨rfl, rfl, rfl⟩
        (walk_spares value false (stmt && position) blocked env whole.2
          (fun _ => early_of_not_void valued blocked) fine)
  | .multiWrite targets value, stmt, position, blocked, env, sub, _, fine => by
      rw [nodes] at sub
      have whole := List.cons_subset.mp sub
      have valued := regular.valued _ whole.1 value List.mem_cons_self
      have inner := walk_spares value false (stmt && position) blocked env whole.2
        (fun _ => early_of_not_void valued blocked) fine
      rw [sparedBy_value valued] at inner
      rw [walk, sparedBy_value rfl, nodes, assignedIn_cons]
      apply ((Narrower.killAll _ targets).trans inner).mono
      intro other mem
      simp only [Node.binds, Node.rescued, List.append_nil, List.mem_append] at mem ⊢
      exact mem.symm
  | .call id receiver method args safeNav, _, _, blocked, env, sub, _, fine => by
      have whole := sub
      rw [nodes, List.cons_subset, List.append_subset] at whole
      have inner := walkOpt_narrower receiver blocked env whole.2.1 fine
      have rest := walkList_spares args false false blocked
        (walkOpt index coarse receiver blocked env).1 whole.2.2 nofun (fine.of_narrower inner)
      rw [walk, sparedBy_value rfl]
      apply Spares.of_written regular.settled sub fine
      intro name className narrowed
      have kept := Narrower.killNarrowed _ _ name className narrowed
      exact ⟨inner name className (rest.narrower name className kept.1), kept.2⟩
  | .logical isAnd left right, _, _, blocked, env, sub, _, fine => by
      have whole := sub
      rw [nodes, List.cons_subset, List.append_subset] at whole
      have first := (walk_spares left false false blocked env whole.2.1 nofun fine).narrower
      have second := (walk_spares right false false blocked _ whole.2.2 nofun
        (fine.of_narrower first)).narrower
      rw [walk, sparedBy_value rfl]
      apply Spares.of_written regular.settled sub fine
      intro name className narrowed
      have kept := Narrower.killNarrowed _ _ name className narrowed
      exact ⟨first name className (second name className kept.1), kept.2⟩
  | .cond predicate thenBody elseBody isUnless, stmt, position, blocked, env, sub, quiet,
      fine => by
      have whole := sub
      rw [nodes, List.cons_subset, List.append_subset] at whole
      have first := (walk_spares predicate false false blocked env whole.2.1 nofun fine).narrower
      rw [walk, sparedBy_value rfl]
      apply Spares.of_written regular.settled sub fine
      have fineBefore := fine.of_narrower first
      intro name className narrowed
      have spares := joinIf_spares fineBefore (carried_coarse quiet) name className narrowed
      exact ⟨first name className spares.1, spares.2⟩
  | .case_ subject branches elseBody, _, position, blocked, env, sub, _, fine => by
      have whole := sub
      rw [nodes, List.cons_subset, List.append_subset] at whole
      have first := walkOpt_narrower subject blocked env whole.2.1 fine
      rw [walk, sparedBy_value rfl]
      apply Spares.of_written regular.settled sub fine
      intro name className narrowed
      have kept := narrowed_of_joinCase narrowed
      exact ⟨first name className kept.1, kept.2.1⟩
  | .beginRescue mainBody clauses elseBody ensureBody, _, position, blocked, env, _, _, _ => by
      rw [walk]
      exact .of_none fun name className => Narrower.join_ne _ _ name className
  | .ret values, stmt, position, blocked, env, sub, _, fine => by
      rw [nodes] at sub
      have whole := List.cons_subset.mp sub
      rw [walk]
      cases stmt with
      | true =>
          have inner := walkList_spares values false false blocked env whole.2 nofun fine
          rw [sparedByList_eq values false blocked (.inr (regular.valued _ whole.1))] at inner
          rw [sparedBy_stmt, nodes, assignedIn_cons]
          exact inner
      | false => exact Spares.refl _
  | .jump values, stmt, position, blocked, env, sub, quiet, fine => by
      rw [nodes] at sub
      have whole := List.cons_subset.mp sub
      have inner := walkList_spares values true position blocked env whole.2
        (fun here => ⟨rfl, by rw [← quiet here, early]⟩) fine
      rw [sparedByList_eq values true blocked (.inl rfl)] at inner
      rw [walk]
      apply inner.mono
      intro name mem
      unfold sparedBy at mem
      split at mem
      · rwa [nodes, assignedIn_cons] at mem
      · nomatch mem
  | .jumpLeaf, stmt, _, blocked, env, _, _, _ => by
      rw [walk]
      cases stmt with
      | true => exact .of_none fun name className => Narrower.join_ne _ _ name className
      | false => exact Spares.refl _
  | .localRead _, _, _, _, env, _, _, _ => by
      rw [walk, sparedBy_value rfl, nodes]
      exact Spares.refl env.facts
  | .variableRead, _, _, _, env, _, _, _ => by
      rw [walk, sparedBy_value rfl, nodes]
      exact Spares.refl env.facts
  | .constantRead _, _, _, _, env, _, _, _ => by
      rw [walk, sparedBy_value rfl, nodes]
      exact Spares.refl env.facts
  | .nilLit, _, _, _, env, _, _, _ => by
      rw [walk, sparedBy_value rfl, nodes]
      exact Spares.refl env.facts
  | .leaf, _, _, _, env, _, _, _ => by
      rw [walk, sparedBy_value rfl, nodes]
      exact Spares.refl env.facts

theorem walkOpt_narrower : ∀ (node : Option Node) (blocked : Bool) (env : Env),
    nodesOpt node blocked ⊆ all → Fine coarse env.facts →
    Narrower (walkOpt index coarse node blocked env).1.facts env.facts
  | none, _, env, _, _ => Narrower.refl env.facts
  | some node, blocked, env, sub, fine => by
      rw [nodesOpt] at sub
      rw [walkOpt]
      exact (walk_spares node false false blocked env sub nofun fine).narrower

theorem walkList_spares : ∀ (list : List Node) (stmt position blocked : Bool) (env : Env),
    nodesList list blocked ⊆ all →
    (position = true → stmt = true ∧ earlyList index coarse list blocked = false) →
    Fine coarse env.facts →
    Spares (walkList index coarse list stmt position blocked env).1.facts env.facts
      (sparedByList list stmt blocked)
  | [], _, _, _, env, _, _, _ => Spares.refl env.facts
  | node :: rest, stmt, position, blocked, env, sub, quiet, fine => by
      rw [nodesList, List.append_subset] at sub
      have quietFirst : position = true → early index coarse node stmt blocked = false := by
        intro here
        have calm := quiet here
        rw [earlyList, Bool.or_eq_false_iff] at calm
        rw [calm.1]
        exact calm.2.1
      have quietRest :
          position = true → stmt = true ∧ earlyList index coarse rest blocked = false := by
        intro here
        have calm := quiet here
        rw [earlyList, Bool.or_eq_false_iff] at calm
        exact ⟨calm.1, calm.2.2⟩
      have first := walk_spares node stmt position blocked env sub.1 quietFirst fine
      have others := walkList_spares rest stmt position blocked _ sub.2 quietRest
        (fine.of_narrower first.narrower)
      rw [walkList]
      apply (others.trans first).mono
      intro name mem
      have split : name ∈ sparedBy node stmt blocked ++ sparedByList rest stmt blocked := mem
      rcases List.mem_append.mp split with here | later
      · exact List.mem_append_left _ here
      · exact List.mem_append_right _ later

end

theorem walkStmts_spares (list : List Node) (position blocked : Bool) (env : Env)
    (sub : nodesList list blocked ⊆ all) (calm : earlyList index coarse list blocked = false)
    (fine : Fine coarse env.facts) :
    Spares (walkList index coarse list true position blocked env).1.facts env.facts
      (assignedIn (nodesList list blocked)) := by
  have spares := walkList_spares regular list true position blocked env sub
    (fun _ => ⟨rfl, calm⟩) fine
  rwa [sparedByList_eq list true blocked (.inl rfl)] at spares

theorem walkClauses_spares (clauses : List Clause) (position blocked : Bool) (env : Env)
    (sub : nodesClauses clauses blocked ⊆ all) (calm : calmClauses index coarse blocked clauses)
    (fine : Fine coarse env.facts) :
    Spares (walkClauses index coarse clauses position blocked env).1.facts env.facts
      (assignedIn (nodesClauses clauses blocked)) := by
  induction clauses generalizing env with
  | nil => exact Spares.refl env.facts
  | cons clause rest ih =>
      rcases clause with ⟨within, boundName, exceptions, body⟩
      rw [nodesClauses, List.append_subset, List.append_subset] at sub
      have here := calm _ List.mem_cons_self
      have tests := walkStmts_spares regular exceptions position (blocked || within) env sub.1
        here.1 fine
      have inner := walkStmts_spares regular body position (blocked || within) _ sub.2.1
        here.2 (fine.of_narrower tests.narrower)
      have others := ih _ sub.2.2 (fun other mem => calm other (List.mem_cons_of_mem _ mem))
        ((fine.of_narrower tests.narrower).of_narrower inner.narrower)
      rw [walkClauses, nodesClauses, assignedIn_append, assignedIn_append]
      apply ((others.trans inner).trans tests).mono
      intro name mem
      rcases List.mem_append.mp mem with first | later
      · exact List.mem_append_left _ first
      · exact List.mem_append_right _ later

end Calm

end Rigor.Infer.Narrowing
