import Rigor.Infer.Narrowing.Scene

/-!
# Predicates in a run

Whenever a run leaves a predicate by one of its edges, the guards of that edge are fulfilled,
if no operand to the right of a guard assigns the guarded local.
-/

namespace Rigor.Infer.Narrowing

open Rigor.Library.Triples

universe u

/-! ### The guards of a predicate -/

theorem mem_addClasses {classes more : List Text} {className : Text} :
    className ∈ more.foldl addClass classes ↔ className ∈ classes ∨ className ∈ more := by
  induction more generalizing classes with
  | nil => simp
  | cons first rest ih =>
      rw [List.foldl_cons, ih, List.mem_cons]
      unfold addClass
      split
      · rename_i present
        constructor
        · exact fun mem => mem.imp_right .inr
        · rintro (old | rfl | new)
          · exact .inl old
          · exact .inl present
          · exact .inr new
      · rw [List.mem_append, List.mem_singleton, or_assoc]

/-- A joined guard comes from a guard of each side. -/
theorem mem_joinGuards {first second : GuardMap} {entry : Text × GuardFact}
    (mem : entry ∈ joinGuards first second) :
    ∃ left right : GuardFact, (entry.1, left) ∈ first ∧ (entry.1, right) ∈ second ∧
      (∀ className, className ∈ entry.2.classes ↔
        className ∈ left.classes ∨ className ∈ right.classes) ∧
      (entry.2.mintable = true → left.mintable = true) ∧
      (entry.2.exact = true ↔ left.exact = true ∧ right.exact = true) := by
  rcases List.mem_filterMap.mp mem with ⟨found, inFirst, joined⟩
  rcases Option.map_eq_some_iff.mp joined with ⟨other, inSecond, rfl⟩
  have same : other.1 = found.1 := by simpa using List.find?_some inSecond
  refine ⟨found.2, other.2, inFirst, ?_, fun _ => mem_addClasses, ?_, ?_⟩
  · rw [← same]
    exact List.mem_of_find?_eq_some inSecond
  · intro both
    exact (Bool.and_eq_true _ _ ▸ both).1
  · exact Bool.and_eq_true_iff

/-- The edges of `&&` and `||` from those of the operands. -/
def logicalEdges (isAnd : Bool) (a b : GuardMap × GuardMap) : GuardMap × GuardMap :=
  if isAnd then (a.1 ++ b.1, joinGuards a.2 b.2) else (joinGuards a.1 b.1, a.2 ++ b.2)

section EdgeHolds

variable {holds : Text × GuardFact → Prop} {isTruthy : Prop} {a b : GuardMap × GuardMap}

/-- The guards of the edge that a predicate takes hold. -/
def EdgeHolds (holds : Text × GuardFact → Prop) (isTruthy : Prop) (edges : GuardMap × GuardMap) : Prop :=
  (isTruthy → ∀ entry ∈ edges.1, holds entry) ∧ (¬isTruthy → ∀ entry ∈ edges.2, holds entry)

/-- A joined guard holds if the guards of one side do. -/
def JoinsHold (holds : Text × GuardFact → Prop) : Prop :=
  ∀ first second, (∀ entry ∈ first, holds entry) ∨ (∀ entry ∈ second, holds entry) →
    ∀ entry ∈ joinGuards first second, holds entry

namespace EdgeHolds

theorem none : EdgeHolds holds isTruthy ([], []) := by
  constructor
  all_goals
    rintro _ _ ⟨⟩

theorem truthy {guard : Text × GuardFact} (held : isTruthy → holds guard) :
    EdgeHolds holds isTruthy ([guard], []) := by
  constructor
  · intro isTrue entry mem
    rw [List.mem_singleton.mp mem]
    exact held isTrue
  · rintro _ _ ⟨⟩

theorem falsey {guard : Text × GuardFact} (held : ¬isTruthy → holds guard) :
    EdgeHolds holds isTruthy ([], [guard]) := by
  constructor
  · rintro _ _ ⟨⟩
  · intro isFalse entry mem
    rw [List.mem_singleton.mp mem]
    exact held isFalse

theorem mono {holds' : Text × GuardFact → Prop} (taken : EdgeHolds holds isTruthy a)
    (implies : ∀ entry, holds entry → holds' entry) : EdgeHolds holds' isTruthy a :=
  ⟨fun here entry mem => implies entry (taken.1 here entry mem),
    fun here entry mem => implies entry (taken.2 here entry mem)⟩

theorem swap (taken : EdgeHolds holds isTruthy a) {swapped : Prop} (swaps : swapped ↔ ¬isTruthy) :
    EdgeHolds holds swapped a.swap :=
  ⟨fun here => taken.2 (swaps.mp here),
    fun here => taken.1 (by_contra fun isFalse => here (swaps.mpr isFalse))⟩

/-- The left operand decides. -/
theorem logical_left (joins : JoinsHold holds) (first : EdgeHolds holds isTruthy a) {isAnd : Bool}
    (stops : ¬(isAnd = true ↔ isTruthy)) : EdgeHolds holds isTruthy (logicalEdges isAnd a b) := by
  cases isAnd with
  | true =>
      have isFalse : ¬isTruthy := fun here => stops ⟨fun _ => here, fun _ => rfl⟩
      exact ⟨fun here => absurd here isFalse, fun here => joins _ _ (.inl (first.2 here))⟩
  | false =>
      have isTrue : isTruthy := by
        by_contra isFalse
        exact stops ⟨Bool.noConfusion, fun here => absurd here isFalse⟩
      exact ⟨fun here => joins _ _ (.inl (first.1 here)), fun here => absurd isTrue here⟩

/-- The right operand decides, where the guards that the left one let through still hold. -/
theorem logical_right (joins : JoinsHold holds) {isAnd : Bool}
    (kept : ∀ entry ∈ (if isAnd then a.1 else a.2), holds entry) (second : EdgeHolds holds isTruthy b) :
    EdgeHolds holds isTruthy (logicalEdges isAnd a b) := by
  cases isAnd with
  | true =>
      exact ⟨fun here entry mem => (List.mem_append.mp mem).elim (kept entry) (second.1 here entry),
        fun here => joins _ _ (.inr (second.2 here))⟩
  | false =>
      exact ⟨fun here => joins _ _ (.inr (second.1 here)),
        fun here entry mem => (List.mem_append.mp mem).elim (kept entry) (second.2 here entry)⟩

end EdgeHolds

end EdgeHolds

theorem negated_eq_some {node operand : Node} (isNegated : negated node = some operand) :
    ∃ id, node = .call id (some operand) "!".toList [] false := by
  unfold negated at isNegated
  split at isNegated
  · rename_i id inner method
    split at isNegated
    · rename_i isNot
      rw [← Option.some.inj isNegated, isNot]
      exact ⟨id, rfl⟩
    · nomatch isNegated
  · nomatch isNegated

theorem bareLocal_eq_some {node : Node} {name : Text} (isLocal : bareLocal node = some name) :
    node = .localRead name := by
  unfold bareLocal at isLocal
  split at isLocal
  · rw [Option.some.inj isLocal]
  · nomatch isLocal

namespace Index

variable {index : Index}

theorem guardConstant_eq_some {node : Node} {className : Text} {mintable : Bool}
    (found : index.guardConstant node = some (className, mintable)) :
    ∃ constant, constant ≠ [] ∧ node = .constantRead constant ∧
      className = index.resolveConstantAsWritten constant ∧
      mintable = !index.constantShadowed constant := by
  unfold guardConstant at found
  split at found
  · rename_i constant
    split at found
    · nomatch found
    · rename_i named
      simp only [Option.some.injEq, Prod.mk.injEq] at found
      exact ⟨constant, named, rfl, found.1.symm, found.2.symm⟩
  · nomatch found

theorem resolvedStaticConstant_eq_some {node : Node} {className : Text}
    (found : index.resolvedStaticConstant node = some className) :
    ∃ constant, constant ≠ [] ∧ index.constantShadowed constant = false ∧
      node = .constantRead constant ∧
      className = index.resolveConstantAsWritten constant := by
  unfold resolvedStaticConstant at found
  split at found
  · rename_i constant
    split at found
    · nomatch found
    · rename_i gate
      simp only [Bool.or_eq_true, decide_eq_true_eq, not_or, Bool.not_eq_true] at gate
      exact ⟨constant, gate.1, gate.2, rfl, (Option.some.inj found).symm⟩
  · nomatch found

variable (index)

/-- The edges of a predicate at a depth. -/
def edgesAt (depth : Nat) (predicate : Node) : GuardMap × GuardMap :=
  (index.analysePredicate depth predicate).getD ([], [])

theorem edgesAt_logical (depth : Nat) (isAnd : Bool) (left right : Node) :
    index.edgesAt (depth + 1) (.logical isAnd left right) = ([], []) ∨
      ((regexBindingMatch (depth + 1) left || regexBindingMatch (depth + 1) right) = false ∧
        index.edgesAt (depth + 1) (.logical isAnd left right) =
          logicalEdges isAnd (index.edgesAt depth left) (index.edgesAt depth right)) := by
  simp only [edgesAt, analysePredicate]
  split
  · exact .inl rfl
  · rename_i noRegex
    split
    · exact .inl rfl
    · refine .inr ⟨by simpa using noRegex, ?_⟩
      unfold logicalEdges
      cases isAnd <;> rfl

theorem edgesAt_of_not_logical (depth : Nat) {node : Node}
    (notLogical : ∀ isAnd left right, node ≠ .logical isAnd left right) :
    index.edgesAt (depth + 1) node =
      match negated node with
      | some operand => (index.edgesAt depth operand).swap
      | none => (index.guardPredicate node).getD ([], []) := by
  rw [edgesAt, analysePredicate]
  · cases negated node with
    | none => rfl
    | some operand =>
        change (Option.map Prod.swap (index.analysePredicate depth operand)).getD ([], []) =
          ((index.analysePredicate depth operand).getD ([], [])).swap
        cases index.analysePredicate depth operand <;> rfl
  · exact notLogical

end Index

/-- No operand to the right of a guard assigns the guarded local, unless it is coarse. -/
def OperandsKeep (index : Index) (coarse : List Text) (blocked : Bool) : Nat → Node → Prop
  | 0, _ => True
  | depth + 1, .logical isAnd left right =>
      (regexBindingMatch (depth + 1) left || regexBindingMatch (depth + 1) right) = true ∨
        ((∀ entry ∈ (if isAnd then (index.edgesAt depth left).1 else (index.edgesAt depth left).2),
          entry.1 ∈ assignedIn (nodes right blocked) → entry.1 ∈ coarse) ∧
          OperandsKeep index coarse blocked depth left ∧
            OperandsKeep index coarse blocked depth right)
  | depth + 1, node =>
      match negated node with
      | some operand => OperandsKeep index coarse blocked depth operand
      | none => True

section Known

variable {V : Type u} {scene : Scene V}

/-- No local is tested both against a misnaming constant and against one that is not shadowed,
unless it is coarse. -/
def Scene.TestsAgree (scene : Scene V) : Prop :=
  ∀ name, name ∉ scene.coarse → scene.Misread name → ∀ constant, scene.Tests name constant →
    constant = [] ∨ scene.index.constantShadowed constant = true

theorem Scene.Known.nilFact (name : Text) : scene.Known (name, nilFact) := by
  intro _
  refine ⟨nofun, fun className mem => .inl ?_⟩
  exact List.mem_singleton.mp mem

theorem Scene.Known.join {first second : GuardMap}
    (left : ∀ entry ∈ first, scene.Known entry) (right : ∀ entry ∈ second, scene.Known entry) :
    ∀ entry ∈ joinGuards first second, scene.Known entry := by
  intro entry mem notCoarse
  rcases mem_joinGuards mem with ⟨a, b, inFirst, inSecond, classes, mintable, -⟩
  have fromFirst := left _ inFirst notCoarse
  have fromSecond := right _ inSecond notCoarse
  refine ⟨fun mints => fromFirst.1 (mintable mints), fun className member => ?_⟩
  rcases (classes className).mp member with inLeft | inRight
  · exact fromFirst.2 className inLeft
  · exact fromSecond.2 className inRight

theorem Scene.Known.of_test {name constant : Text} {exact mintable : Bool}
    (agree : scene.TestsAgree) (tests : scene.Tests name constant) (named : constant ≠ [])
    (mints : mintable = true → scene.index.constantShadowed constant = false) :
    scene.Known (name, {
      classes := [scene.index.resolveConstantAsWritten constant], exact, mintable }) := by
  intro notCoarse
  constructor
  · intro isMintable misread
    rcases agree name notCoarse misread constant tests with empty | shadowed
    · exact named empty
    · rw [mints isMintable] at shadowed
      cases shadowed
  · intro className mem
    exact .inr ⟨constant, tests, List.mem_singleton.mp mem⟩

/-- An atomic guard is a class test of the node or a test for `nil`. -/
theorem guardPredicate_cases {index : Index} {node : Node} {edges : GuardMap × GuardMap}
    (found : index.guardPredicate node = some edges) :
    (∃ id name constant method, isClassTest method = true ∧ constant ≠ [] ∧
      node = .call id (some (.localRead name)) method [.constantRead constant] false ∧
      edges = ([(name, {
        classes := [index.resolveConstantAsWritten constant]
        exact := method == "instance_of?".toList
        mintable := !index.constantShadowed constant })], [])) ∨
    (∃ id name constant, constant ≠ [] ∧ index.constantShadowed constant = false ∧
      node = .call id (some (.constantRead constant)) "===".toList [.localRead name] false ∧
      edges = ([(name, {
        classes := [index.resolveConstantAsWritten constant]
        exact := false
        mintable := false })], [])) ∨
    (∃ id receiver arg name, comparedWithNil receiver arg = some name ∧
      node = .call id (some receiver) "==".toList [arg] false ∧
      edges = ([(name, nilFact)], [])) ∨
    (∃ id receiver arg name, comparedWithNil receiver arg = some name ∧
      node = .call id (some receiver) "!=".toList [arg] false ∧
      edges = ([], [(name, nilFact)])) ∨
    (∃ id name, node = .call id (some (.localRead name)) "nil?".toList [] false ∧
      edges = ([(name, nilFact)], [])) := by
  unfold Index.guardPredicate at found
  split at found
  · rename_i id receiver method arg
    split at found
    · rename_i isTest
      split at found
      · rename_i className mintable name isConstant isLocal
        rcases Index.guardConstant_eq_some isConstant with ⟨constant, named, rfl, rfl, rfl⟩
        rw [bareLocal_eq_some isLocal]
        exact .inl ⟨id, name, constant, method, isTest, named, rfl, (Option.some.inj found).symm⟩
      · nomatch found
    · split at found
      · rename_i isCaseEq
        split at found
        · rename_i name className isLocal isConstant
          rcases Index.resolvedStaticConstant_eq_some isConstant with
            ⟨constant, named, unshadowed, rfl, rfl⟩
          rw [bareLocal_eq_some isLocal, isCaseEq]
          exact .inr (.inl ⟨id, name, constant, named, unshadowed, rfl,
            (Option.some.inj found).symm⟩)
        · nomatch found
      · split at found
        · rename_i isEq
          rcases Option.map_eq_some_iff.mp found with ⟨name, compared, rfl⟩
          rw [isEq]
          exact .inr (.inr (.inl ⟨id, receiver, arg, name, compared, rfl, rfl⟩))
        · split at found
          · rename_i isNe
            rcases Option.map_eq_some_iff.mp found with ⟨name, compared, rfl⟩
            rw [isNe]
            exact .inr (.inr (.inr (.inl ⟨id, receiver, arg, name, compared, rfl, rfl⟩)))
          · nomatch found
  · rename_i id receiver method
    split at found
    · rename_i isNil
      rcases Option.map_eq_some_iff.mp found with ⟨name, isLocal, rfl⟩
      rw [isNil, bareLocal_eq_some isLocal]
      exact .inr (.inr (.inr (.inr ⟨id, name, rfl, rfl⟩)))
    · nomatch found
  · nomatch found

/-- The classes of one atomic guard are those of its test. -/
theorem guardPredicate_known (agree : scene.TestsAgree) {node : Node} {blocked : Bool}
    (inBody : (blocked, node) ∈ scene.all) {edges : GuardMap × GuardMap}
    (found : scene.index.guardPredicate node = some edges) :
    (∀ entry ∈ edges.1, scene.Known entry) ∧ ∀ entry ∈ edges.2, scene.Known entry := by
  rcases guardPredicate_cases found with
    ⟨id, name, constant, method, isTest, named, rfl, rfl⟩ |
    ⟨id, name, constant, named, unshadowed, rfl, rfl⟩ | ⟨id, receiver, arg, name, _, _, rfl⟩ |
    ⟨id, receiver, arg, name, _, _, rfl⟩ | ⟨id, name, _, rfl⟩
  · constructor
    · intro entry mem
      rw [List.mem_singleton.mp mem]
      apply Scene.Known.of_test agree ⟨_, inBody, ?_⟩ named (by simp)
      simp [Node.tests, isTest, testedPair, bareLocal]
    · rintro _ ⟨⟩
  · constructor
    · intro entry mem
      rw [List.mem_singleton.mp mem]
      exact Scene.Known.of_test agree ⟨_, inBody, List.mem_singleton_self _⟩ named (by rintro ⟨⟩)
    · rintro _ ⟨⟩
  · constructor
    · intro entry mem
      rw [List.mem_singleton.mp mem]
      exact .nilFact name
    · rintro _ ⟨⟩
  · constructor
    · rintro _ ⟨⟩
    · intro entry mem
      rw [List.mem_singleton.mp mem]
      exact .nilFact name
  · constructor
    · intro entry mem
      rw [List.mem_singleton.mp mem]
      exact .nilFact name
    · rintro _ ⟨⟩

/-- The guards of a predicate are known. -/
theorem edgesAt_known (agree : scene.TestsAgree) (depth : Nat) {node : Node} {blocked : Bool}
    (sub : nodes node blocked ⊆ scene.all) :
    (∀ entry ∈ (scene.index.edgesAt depth node).1, scene.Known entry) ∧
      ∀ entry ∈ (scene.index.edgesAt depth node).2, scene.Known entry := by
  induction depth generalizing node with
  | zero => exact ⟨nofun, nofun⟩
  | succ depth ih =>
      by_cases isLogical : ∃ isAnd left right, node = .logical isAnd left right
      · rcases isLogical with ⟨isAnd, left, right, rfl⟩
        rw [nodes, List.cons_subset, List.append_subset] at sub
        have first := ih sub.2.1
        have second := ih sub.2.2
        rcases scene.index.edgesAt_logical depth isAnd left right with none | ⟨_, edges⟩
        · rw [none]
          exact ⟨nofun, nofun⟩
        · rw [edges]
          cases isAnd with
          | true =>
              exact ⟨fun entry mem => (List.mem_append.mp mem).elim (first.1 entry)
                (second.1 entry), Scene.Known.join first.2 second.2⟩
          | false =>
              exact ⟨Scene.Known.join first.1 second.1, fun entry mem =>
                (List.mem_append.mp mem).elim (first.2 entry) (second.2 entry)⟩
      · have notLogical : ∀ isAnd left right, node ≠ .logical isAnd left right :=
          fun isAnd left right same => isLogical ⟨isAnd, left, right, same⟩
        rw [scene.index.edgesAt_of_not_logical depth notLogical]
        cases isNegated : negated node with
        | some operand =>
            rcases negated_eq_some isNegated with ⟨id, rfl⟩
            rw [nodes, List.cons_subset, List.append_subset, nodesOpt] at sub
            exact (ih sub.2.1).symm
        | none =>
            cases found : scene.index.guardPredicate node with
            | none => exact ⟨nofun, nofun⟩
            | some edges => exact guardPredicate_known agree (sub (self_mem_nodes node blocked)) found

end Known

/-! ### Runs of predicates -/

section Runs

variable {V : Type u} {world : World V} {s : Text → V}

/-- Whatever the events are. -/
abbrev anyEvent : Nat × V → Prop :=
  fun _ => True

/-- The value of a local, a constant or `nil`. -/
def operandValue (world : World V) (s : Text → V) : Node → Option V
  | .localRead name => some (s name)
  | .constantRead name => some (world.constant name)
  | .nilLit => some world.nil
  | _ => none

/-- The values of the operands of a call answer it. -/
def AtomAnswers (world : World V) (s : Text → V) (node : Node) (r : V) : Prop :=
  ∃ id receiver method args v ws, node = .call id (some receiver) method args false ∧
    operandValue world s receiver = some v ∧ args.map (operandValue world s) = ws.map some ∧
      world.answers v method ws r

namespace AtomAnswers

variable {id : Nat} {receiver arg : Node} {method : Text} {r v w : V}

theorem unary (answers : AtomAnswers world s (.call id (some receiver) method [] false) r)
    (callee : operandValue world s receiver = some v) : world.answers v method [] r := by
  rcases answers with ⟨_, _, _, _, v', ws, ⟨⟩, callee', given, answer⟩
  cases callee.symm.trans callee'
  cases List.map_eq_nil_iff.mp given.symm
  exact answer

theorem binary (answers : AtomAnswers world s (.call id (some receiver) method [arg] false) r)
    (callee : operandValue world s receiver = some v) (given : operandValue world s arg = some w) :
    world.answers v method [w] r := by
  rcases answers with ⟨_, _, _, _, v', ws, ⟨⟩, callee', given', answer⟩
  cases callee.symm.trans callee'
  rcases ws with _ | ⟨w', _ | ⟨_, _⟩⟩
  · contradiction
  · rw [List.map_cons, List.map_cons, given] at given'
    cases given'
    exact answer
  · simp at given'

end AtomAnswers

theorem run_operand {node : Node} {v : V} (operand : operandValue world s node = some v) :
    Triple (· = s) (run world node) anyEvent (onDone fun value s' => s' = s ∧ value = v) := by
  unfold operandValue at operand
  split at operand
  · rw [← Option.some.inj operand, run]
    exact Triple.read fun s' same => ⟨same, by rw [same]⟩
  · rw [← Option.some.inj operand, run]
    exact Triple.either (Triple.halt fun _ _ => trivial) (Triple.pure fun s' same => ⟨same, rfl⟩)
  · rw [← Option.some.inj operand, run]
    exact Triple.pure fun s' same => ⟨same, rfl⟩
  · nomatch operand

/-- A call on what its receiver and its arguments evaluate to. -/
theorem run_call {id : Nat} {receiver : Node} {method : Text} {args : List Node}
    {pre : (Text → V) → Prop} {value : V → (Text → V) → Prop}
    {given : V → List V → (Text → V) → Prop}
    (inner : Triple pre (run world receiver) anyEvent (onDone value))
    (rest : ∀ v, Triple (value v) (runList world args) anyEvent (onDone (given v))) :
    Triple pre (run world (.call id (some receiver) method args false)) anyEvent
      (onDone fun result s' => ∃ v vs, given v vs s' ∧ world.answers v method vs result) := by
  have callee : Triple pre (runOpt world (some receiver)) anyEvent
      (onDone fun callee s' => ∃ v, callee = some v ∧ value v s') := by
    rw [runOpt]
    apply Triple.bindDone inner
    intro v
    exact Triple.pure fun s' reached => ⟨v, rfl, reached⟩
  rw [run]
  apply Triple.bindDone callee
  intro receiverValue
  apply Triple.either
  · exact Triple.assuming fun skips => Bool.noConfusion skips.1
  · apply Triple.assuming
    intro _
    cases receiverValue with
    | none =>
        intro s₁ events e s' reached
        rcases reached with ⟨v, isNone, _⟩
        cases isNone
    | some v =>
        have recorded : Triple (fun s' => ∃ w, some v = some w ∧ value w s')
            (recordCall id (some receiver) (some v)) anyEvent (onDone fun _ => value v) := by
          unfold recordCall
          split
          · apply Triple.emit
            rintro s' ⟨w, same, reached⟩
            exact ⟨trivial, Option.some.inj same ▸ reached⟩
          · apply Triple.pure
            rintro s' ⟨w, same, reached⟩
            exact Option.some.inj same ▸ reached
        apply Triple.bindDone recorded
        intro _
        apply Triple.bindDone (rest v)
        intro vs
        apply Triple.either (Triple.halt fun _ _ => trivial)
        exact Triple.choose fun result s' answer reached => ⟨v, vs, reached, answer⟩

/-- A call without arguments. -/
theorem run_unary {id : Nat} {receiver : Node} {method : Text} {pre : (Text → V) → Prop}
    {value : V → (Text → V) → Prop}
    (inner : Triple pre (run world receiver) anyEvent (onDone value)) :
    Triple pre (run world (.call id (some receiver) method [] false)) anyEvent
      (onDone fun result s' => ∃ v, value v s' ∧ world.answers v method [] result) := by
  have noArgs : ∀ v, Triple (value v) (runList world []) anyEvent
      (onDone fun vs s' => vs = [] ∧ value v s') := by
    intro v
    rw [runList]
    exact Triple.pure fun s' reached => ⟨rfl, reached⟩
  apply (run_call inner noArgs).weakenPost
  intro e s' ended
  cases e with
  | aborted _ => trivial
  | done result =>
      rcases ended with ⟨v, vs, ⟨rfl, reached⟩, answer⟩
      exact ⟨v, reached, answer⟩

/-- A call on an operand with one operand. -/
theorem run_binary {id : Nat} {receiver arg : Node} {method : Text} {v w : V}
    (left : operandValue world s receiver = some v)
    (right : operandValue world s arg = some w) :
    Triple (· = s) (run world (.call id (some receiver) method [arg] false)) anyEvent
      (onDone fun result s' => s' = s ∧ world.answers v method [w] result) := by
  have oneArg : ∀ u, Triple (fun s' => s' = s ∧ u = v) (runList world [arg]) anyEvent
      (onDone fun vs s' => s' = s ∧ u = v ∧ vs = [w]) := by
    intro u
    apply Triple.of_fact
    rintro rfl
    rw [runList]
    apply Triple.bindDone (run_operand right)
    intro value
    rw [runList, bind_of_pure]
    apply Triple.pure
    rintro s' ⟨same, rfl⟩
    exact ⟨same, rfl, rfl⟩
  apply (run_call (run_operand left) oneArg).weakenPost
  intro e s' ended
  cases e with
  | aborted _ => trivial
  | done result =>
      rcases ended with ⟨u, vs, ⟨same, rfl, rfl⟩, answer⟩
      exact ⟨same, answer⟩

/-- What a run of a node leaves alone. -/
theorem run_frame (node : Node) (blocked : Bool) :
    Triple (· = s) (run world node) anyEvent
      (fun _ => Agrees s (assignedIn (nodes node blocked))) := by
  have confined : Confined s (assignedIn (nodes node blocked)) (callIdsIn (nodes node blocked))
      (run world node) := run_confined world node blocked ⟨fun _ => id, fun _ => id⟩
  apply (Triple.allow confined fun _ _ => trivial).weakenPre
  rintro s' rfl
  exact fun _ _ => rfl

theorem runList_frame (list : List Node) (blocked : Bool) :
    Triple (· = s) (runList world list) anyEvent
      (fun _ => Agrees s (assignedIn (nodesList list blocked))) := by
  have confined : Confined s (assignedIn (nodesList list blocked))
      (callIdsIn (nodesList list blocked)) (runList world list) :=
    runList_confined world list blocked ⟨fun _ => id, fun _ => id⟩
  apply (Triple.allow confined fun _ _ => trivial).weakenPre
  rintro s' rfl
  exact fun _ _ => rfl

end Runs

/-! ### The edge a run takes -/

section Edges

variable {V : Type u} {scene : Scene V}

/-- The guards of the edge that a value of the predicate takes are fulfilled. -/
def Scene.Taken (scene : Scene V) (edges : GuardMap × GuardMap) (v : V) (s : Text → V) : Prop :=
  (scene.world.truthy v → ∀ entry ∈ edges.1, scene.Fulfilled s entry) ∧
    (¬scene.world.truthy v → ∀ entry ∈ edges.2, scene.Fulfilled s entry)

theorem Scene.isA_of_instanceOf {name constant : Text} {v : V}
    (tests : scene.Tests name constant) (wellRead : ¬scene.Misread name)
    (instance_ : scene.world.instanceOf v (scene.world.constant constant)) :
    scene.world.isA v (scene.index.resolveConstantAsWritten constant) := by
  by_contra notIsA
  exact wellRead ⟨constant, tests, v, instance_, notIsA⟩

/-- The operands of a comparison of a local with `nil`. -/
theorem operands_of_comparedWithNil {receiver arg : Node} {name : Text}
    (compared : comparedWithNil receiver arg = some name) (world : World V) (s : Text → V) :
    ∃ v w, operandValue world s receiver = some v ∧ operandValue world s arg = some w ∧
      (v = world.nil ∨ w = world.nil) ∧ (v = w → s name = world.nil) := by
  unfold comparedWithNil at compared
  split at compared
  · rw [← Option.some.inj compared]
    exact ⟨_, _, rfl, rfl, .inr rfl, id⟩
  · rw [← Option.some.inj compared]
    exact ⟨_, _, rfl, rfl, .inl rfl, Eq.symm⟩
  · nomatch compared

/-- What a passed test tells of the value of a local: it is an instance of a constant of the test,
and of exactly that one if the guard is exact, or it is `nil`. -/
def Witnessed (index : Index) (world : World V) (node : Node) (s : Text → V) (entry : Text × GuardFact) :
    Prop :=
  (∃ constant, (entry.1, constant) ∈ node.tests ∧
    entry.2.classes = [index.resolveConstantAsWritten constant] ∧
    world.instanceOf (s entry.1) (world.constant constant) ∧
    (entry.2.exact = true → world.classOf (s entry.1) (world.constant constant))) ∨
  (entry.2 = nilFact ∧ s entry.1 = world.nil)

/-- What an atom answers witnesses the guard of its edge. -/
theorem guardPredicate_witnessed {index : Index} {world : World V} (truthful : Truthful index world)
    {node : Node} {edges : GuardMap × GuardMap} (found : index.guardPredicate node = some edges)
    {s : Text → V} {r : V} (answers : AtomAnswers world s node r) :
    EdgeHolds (Witnessed index world node s) (world.truthy r) edges := by
  rcases guardPredicate_cases found with
    ⟨id, name, constant, method, isTest, named, rfl, rfl⟩ |
    ⟨id, name, constant, named, unshadowed, rfl, rfl⟩ |
    ⟨id, receiver, arg, name, compared, rfl, rfl⟩ |
    ⟨id, receiver, arg, name, compared, rfl, rfl⟩ | ⟨id, name, rfl, rfl⟩
  · have answer := answers.binary (v := s name) (w := world.constant constant) rfl rfl
    apply EdgeHolds.truthy
    intro isTruthy
    refine .inl ⟨constant, by simp [Node.tests, isTest, testedPair, bareLocal], rfl, ?_, ?_⟩
    · simp only [isClassTest, Bool.or_eq_true, beq_iff_eq] at isTest
      rcases isTest with isIsA | isExact
      · exact (truthful.isA method _ _ _ isIsA answer).mp isTruthy
      · rw [isExact] at answer
        exact truthful.classOf _ _ ((truthful.instanceOf _ _ _ answer).mp isTruthy)
    · intro exact_
      rw [beq_iff_eq.mp exact_] at answer
      exact (truthful.instanceOf _ _ _ answer).mp isTruthy
  · have answer := answers.binary (v := world.constant constant) (w := s name) rfl rfl
    apply EdgeHolds.truthy
    intro isTruthy
    refine .inl ⟨constant, List.mem_singleton_self _, rfl, ?_, by rintro ⟨⟩⟩
    exact (truthful.caseEq _ _ _ named unshadowed answer).mp isTruthy
  · rcases operands_of_comparedWithNil compared world s with ⟨v, w, left, right, nil, same⟩
    have answer := answers.binary left right
    apply EdgeHolds.truthy
    intro isTruthy
    exact .inr ⟨rfl, same ((truthful.eqNil _ _ _ nil answer).mp isTruthy)⟩
  · rcases operands_of_comparedWithNil compared world s with ⟨v, w, left, right, nil, same⟩
    have answer := answers.binary left right
    apply EdgeHolds.falsey
    intro isFalsey
    have equal : v = w := by
      by_contra different
      exact isFalsey ((truthful.neNil _ _ _ nil answer).mpr different)
    exact .inr ⟨rfl, same equal⟩
  · have answer := answers.unary (v := s name) rfl
    apply EdgeHolds.truthy
    intro isTruthy
    exact .inr ⟨rfl, (truthful.isNil _ _ answer).mp isTruthy⟩

/-- A run of an atom that is not aborted is an answer of its operands. -/
theorem run_atom {index : Index} {world : World V} {node : Node} {edges : GuardMap × GuardMap}
    (found : index.guardPredicate node = some edges) (s : Text → V) :
    Triple (· = s) (run world node) anyEvent
      (onDone fun r s' => s' = s ∧ AtomAnswers world s node r) := by
  have binary : ∀ {id receiver arg method v w}, operandValue world s receiver = some v →
      operandValue world s arg = some w →
      Triple (· = s) (run world (.call id (some receiver) method [arg] false)) anyEvent
        (onDone fun r s' => s' = s ∧
          AtomAnswers world s (.call id (some receiver) method [arg] false) r) := by
    intro id receiver arg method v w left right
    apply (run_binary left right).weakenDone
    rintro r s' ⟨same, answer⟩
    exact ⟨same, id, receiver, method, [arg], v, [w], rfl, left, by simp [right], answer⟩
  rcases guardPredicate_cases found with
    ⟨id, name, constant, method, isTest, named, rfl, -⟩ |
    ⟨id, name, constant, named, unshadowed, rfl, -⟩ |
    ⟨id, receiver, arg, name, compared, rfl, -⟩ |
    ⟨id, receiver, arg, name, compared, rfl, -⟩ | ⟨id, name, rfl, -⟩
  · exact binary (v := s name) (w := world.constant constant) rfl rfl
  · exact binary (v := world.constant constant) (w := s name) rfl rfl
  · rcases operands_of_comparedWithNil compared world s with ⟨v, w, left, right, -⟩
    exact binary left right
  · rcases operands_of_comparedWithNil compared world s with ⟨v, w, left, right, -⟩
    exact binary left right
  · have isLocal : operandValue world s (.localRead name) = some (s name) := rfl
    apply (run_unary (run_operand isLocal)).weakenDone
    rintro r s' ⟨v, ⟨same, rfl⟩, answer⟩
    exact ⟨same, id, _, _, [], s name, [], rfl, isLocal, rfl, answer⟩

theorem Scene.Fulfilled.of_witnessed (truthful : Truthful scene.index scene.world) {node : Node}
    {blocked : Bool} (inBody : (blocked, node) ∈ scene.all) {s : Text → V} {entry : Text × GuardFact}
    (witnessed : Witnessed scene.index scene.world node s entry) : scene.Fulfilled s entry := by
  intro _ wellRead
  rcases witnessed with ⟨constant, tested, classes, isInstance, -⟩ | ⟨isNilFact, isNil⟩
  · rw [classes]
    exact ⟨_, List.mem_singleton_self _, scene.isA_of_instanceOf ⟨_, inBody, tested⟩ wellRead isInstance⟩
  · rw [isNilFact, isNil]
    exact ⟨_, List.mem_singleton_self _, truthful.nilClass⟩

/-- An atomic guard is fulfilled on its edge. -/
theorem guardPredicate_fulfilled (truthful : Truthful scene.index scene.world) {node : Node}
    {blocked : Bool} (inBody : (blocked, node) ∈ scene.all) {edges : GuardMap × GuardMap}
    (found : scene.index.guardPredicate node = some edges) :
    Triple (fun _ => True) (run scene.world node) anyEvent (onDone (scene.Taken edges)) := by
  apply Triple.of_start
  intro s _
  apply (run_atom found s).weakenDone
  rintro r s' ⟨rfl, answers⟩
  exact (guardPredicate_witnessed truthful found answers).mono fun entry =>
    Scene.Fulfilled.of_witnessed truthful inBody

/-- A guard stays fulfilled while its local does not change. -/
theorem Scene.Fulfilled.of_agrees {entry : Text × GuardFact} {start s : Text → V}
    {names : List Text} (fulfilled : scene.Fulfilled start entry)
    (keep : entry.1 ∈ names → entry.1 ∈ scene.coarse) (agrees : Agrees start names s) :
    scene.Fulfilled s entry := by
  intro notCoarse wellRead
  rw [agrees entry.1 fun mem => notCoarse (keep mem)]
  exact fulfilled notCoarse wellRead

theorem joinsHold_fulfilled (s : Text → V) : JoinsHold (scene.Fulfilled s) := by
  intro first second either entry mem notCoarse wellRead
  rcases mem_joinGuards mem with ⟨a, b, inFirst, inSecond, classes, -, -⟩
  rcases either with left | right
  · rcases left _ inFirst notCoarse wellRead with ⟨className, member, isClass⟩
    exact ⟨className, (classes className).mpr (.inl member), isClass⟩
  · rcases right _ inSecond notCoarse wellRead with ⟨className, member, isClass⟩
    exact ⟨className, (classes className).mpr (.inr member), isClass⟩

/-- The right operand of `&&` or `||` keeps what the left one guards. -/
theorem run_right {right : Node} {blocked : Bool} {kept : GuardMap}
    {edges : GuardMap × GuardMap}
    (keep : ∀ entry ∈ kept, entry.1 ∈ assignedIn (nodes right blocked) →
      entry.1 ∈ scene.coarse)
    (inner : Triple (fun _ => True) (run scene.world right) anyEvent
      (onDone (scene.Taken edges))) :
    Triple (fun s => ∀ entry ∈ kept, scene.Fulfilled s entry) (run scene.world right) anyEvent
      (onDone fun v s => (∀ entry ∈ kept, scene.Fulfilled s entry) ∧ scene.Taken edges v s) := by
  apply Triple.of_start
  intro start fulfilled
  have frame : Triple (· = start) (run scene.world right) anyEvent
      (fun _ => Agrees start (assignedIn (nodes right blocked))) := run_frame right blocked
  have both := frame.also inner
  apply both.weaken (fun s same => ⟨same, trivial⟩)
  intro e s ended
  cases e with
  | aborted _ => trivial
  | done v =>
      exact ⟨fun entry mem => (fulfilled entry mem).of_agrees (keep entry mem) ended.1, ended.2⟩

/-- The edges of `&&` and `||`. -/
theorem run_logical {isAnd : Bool} {left right : Node} {blocked : Bool}
    {a b : GuardMap × GuardMap}
    (keep : ∀ entry ∈ (if isAnd then a.1 else a.2),
      entry.1 ∈ assignedIn (nodes right blocked) → entry.1 ∈ scene.coarse)
    (first : Triple (fun _ => True) (run scene.world left) anyEvent (onDone (scene.Taken a)))
    (second : Triple (fun _ => True) (run scene.world right) anyEvent
      (onDone (scene.Taken b))) :
    Triple (fun _ => True) (run scene.world (.logical isAnd left right)) anyEvent
      (onDone (scene.Taken (logicalEdges isAnd a b))) := by
  rw [run]
  apply Triple.bindDone first
  intro v
  have rest := run_right keep second
  have joins : ∀ s, JoinsHold (scene.Fulfilled s) := joinsHold_fulfilled
  apply Triple.either
  · apply Triple.assuming
    intro goesOn
    apply rest.weaken
    · intro s taken
      cases isAnd with
      | true => exact taken.1 (goesOn.mp rfl)
      | false => exact taken.2 fun here => Bool.noConfusion (goesOn.mpr here)
    · intro e s ended
      cases e with
      | aborted _ => trivial
      | done w => exact EdgeHolds.logical_right (joins s) ended.1 ended.2
  · apply Triple.assuming
    intro stops
    exact Triple.pure fun s taken => EdgeHolds.logical_left (joins s) taken stops

/-- The guards of the edge that a run takes are fulfilled. -/
theorem edgesAt_fulfilled (truthful : Truthful scene.index scene.world) (depth : Nat)
    {node : Node} {blocked : Bool} (sub : nodes node blocked ⊆ scene.all)
    (keep : OperandsKeep scene.index scene.coarse blocked depth node) :
    Triple (fun _ => True) (run scene.world node) anyEvent
      (onDone (scene.Taken (scene.index.edgesAt depth node))) := by
  induction depth generalizing node with
  | zero =>
      intro s events e s' _ _
      refine ⟨fun _ _ => trivial, ?_⟩
      cases e with
      | aborted _ => trivial
      | done v => exact EdgeHolds.none
  | succ depth ih =>
      by_cases isLogical : ∃ isAnd left right, node = .logical isAnd left right
      · rcases isLogical with ⟨isAnd, left, right, rfl⟩
        rw [nodes, List.cons_subset, List.append_subset] at sub
        rcases scene.index.edgesAt_logical depth isAnd left right with none | ⟨noRegex, edges⟩
        · rw [none]
          intro s events e s' _ _
          refine ⟨fun _ _ => trivial, ?_⟩
          cases e with
          | aborted _ => trivial
          | done v => exact EdgeHolds.none
        · rw [OperandsKeep] at keep
          rcases keep with isRegex | ⟨keepRight, keepLeft, keepInner⟩
          · rw [noRegex] at isRegex
            cases isRegex
          · rw [edges]
            exact run_logical keepRight (ih sub.2.1 keepLeft) (ih sub.2.2 keepInner)
      · have notLogical : ∀ isAnd left right, node ≠ .logical isAnd left right :=
          fun isAnd left right same => isLogical ⟨isAnd, left, right, same⟩
        rw [scene.index.edgesAt_of_not_logical depth notLogical]
        rw [OperandsKeep] at keep
        · cases isNegated : negated node with
          | some operand =>
              rw [isNegated] at keep
              rcases negated_eq_some isNegated with ⟨id, rfl⟩
              rw [nodes, List.cons_subset, List.append_subset, nodesOpt] at sub
              apply (run_unary (ih sub.2.1 keep)).weakenPost
              intro e s' ended
              cases e with
              | aborted _ => trivial
              | done result =>
                  rcases ended with ⟨v, taken, answer⟩
                  exact EdgeHolds.swap taken (truthful.not v result answer)
          | none =>
              cases found : scene.index.guardPredicate node with
              | none =>
                  intro s events e s' _ _
                  refine ⟨fun _ _ => trivial, ?_⟩
                  cases e with
                  | aborted _ => trivial
                  | done v => exact EdgeHolds.none
              | some edges =>
                  exact guardPredicate_fulfilled truthful (sub (self_mem_nodes node blocked)) found
        · exact notLogical

end Edges

end Rigor.Infer.Narrowing
