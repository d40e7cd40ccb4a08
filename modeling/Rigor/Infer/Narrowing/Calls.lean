import Rigor.Infer.Narrowing.Sound

/-!
# Narrowed calls

A call that `class_narrowing_pass` records as narrowed to a class is only executed on instances
of the class, if no fact of the body outlives what it was learnt from.  An operand that assigns
the local its left sibling guards makes a fact outlive its guard.
-/

namespace Rigor.Infer.Narrowing

open Rigor.Library.Triples

universe u

/-- Every narrowed call that a run of the body executes has an instance of its class as the
receiver. -/
def NarrowedCallsSound {V : Type u} (index : Index) (world : World V) (body : MethodBody) :
    Prop :=
  ∀ s events e s', runList world body.stmts s events e s' →
    ∀ id v, (id, v) ∈ events →
      ∀ className, (id, className) ∈ (classNarrowingPass index body).calls →
        world.isA v className

def sceneOf {V : Type u} (index : Index) (world : World V) (body : MethodBody) : Scene V :=
  { index, world, coarse := coarseLocals body.stmts, all := nodesList body.stmts false }

section Body

variable {V : Type u} {index : Index} {world : World V} {body : MethodBody}

theorem regular_sceneOf (sheltered : (sceneOf index world body).Sheltered) :
    Regular (sceneOf index world body).coarse (sceneOf index world body).all := by
  constructor
  · constructor
    · exact sheltered.blocked
    · intro entry mem name bound
      apply mem_coarseLocals_of_unvalued mem
      rcases entry with ⟨blocked, node⟩
      cases node with
      | beginRescue mainBody clauses elseBody ensureBody =>
          exact List.mem_map.mpr ⟨name, bound, rfl⟩
      | _ => nomatch bound
  · exact body.valued

theorem mem_usesOf_of_calls {id : Nat} {className : Text}
    (mem : (id, className) ∈ (classNarrowingPass index body).calls) :
    .narrowed id className ∈ usesOf index body.stmts := by
  rcases List.mem_filterMap.mp mem with ⟨use, recorded, isCall⟩
  cases use with
  | narrowed other found =>
      simp only [Option.some.injEq, Prod.mk.injEq] at isCall
      rw [← isCall.1, ← isCall.2]
      exact recorded
  | dead _ => nomatch isCall

/-- Class narrowing is sound on sheltered bodies. -/
theorem narrowedCalls_sound (truthful : Truthful index world)
    (sheltered : (sceneOf index world body).Sheltered) :
    NarrowedCallsSound index world body := by
  intro s events e s' isRun id v executed className isCall
  have owns : Owns (usesOf index body.stmts) (callIdsIn (nodesList body.stmts false))
      (usesOf index body.stmts) := ⟨body.distinct, fun _ _ _ mem => mem⟩
  have whole : Triple ((sceneOf index world body).Holds fun _ => none)
      (runList world body.stmts) ((sceneOf index world body).Right (usesOf index body.stmts)) _ :=
    walkList_sound truthful (regular_sceneOf sheltered) sheltered body.stmts true true false _
      (List.Subset.refl _) owns
  have start : (sceneOf index world body).Holds (fun _ => none) s := nofun
  exact (whole start isRun).1 (id, v) executed className (mem_usesOf_of_calls isCall)

end Body

/-! ### A guard that an operand outdates -/

/-- `nil`, a string, a number and the class of strings. -/
inductive Sample where
  | nil
  | text
  | number
  | string
  deriving DecidableEq

/-- No project class, and every constant resolves to its spelling. -/
def sampleIndex : Index where
  classOrdering _ _ := .unknown
  knownClass _ := true
  constantShadowed _ := false
  enclosing := []
  typeOf _ _ := .dynamic
  bindTarget _ _ := .dynamic
  floored _ := []

/-- A call returns whatever the test methods allow. -/
def sampleWorld : World Sample where
  nil := .nil
  truthy v := v ≠ .nil
  constant name :=
    if sampleIndex.resolveConstantAsWritten name = "String".toList then .string else .nil
  instanceOf v k := v = .text ∧ k = .string
  classOf v k := v = .text ∧ k = .string
  isA v className :=
    v = .text ∧ className = "String".toList ∨ v = .nil ∧ className = "NilClass".toList
  answers v method args r :=
    match args with
    | [] => method = "nil?".toList ∨ method = "!".toList → (r ≠ .nil ↔ v = .nil)
    | [w] =>
        (method = "is_a?".toList ∨ method = "kind_of?".toList ∨ method = "instance_of?".toList →
          (r ≠ .nil ↔ v = .text ∧ w = .string)) ∧
        (method = "===".toList → (r ≠ .nil ↔ w = .text ∧ v = .string)) ∧
        (method = "==".toList → (r ≠ .nil ↔ v = w)) ∧
        (method = "!=".toList → (r ≠ .nil ↔ v ≠ w))
    | _ => True

theorem sample_truthful : Truthful sampleIndex sampleWorld where
  nilClass := .inr ⟨rfl, rfl⟩
  classOf _ _ := id
  constant name v _ _ isInstance := by
    rcases isInstance with ⟨rfl, isString⟩
    simp only [sampleWorld] at isString
    split at isString
    · exact .inl ⟨rfl, ‹_›⟩
    · nomatch isString
  isA method v k r isTest answer := answer.1 (isTest.imp_right .inl)
  instanceOf v k r answer := answer.1 (.inr (.inr rfl))
  caseEq name v r _ _ answer := answer.2.1 rfl
  isNil v r answer := answer (.inl rfl)
  eqNil v w r _ answer := answer.2.2.1 rfl
  neNil v w r _ answer := answer.2.2.2 rfl
  not v r answer := by
    have isNot : r ≠ .nil ↔ v = .nil := answer (.inr rfl)
    exact isNot.trans not_not.symm

/-- `if x.is_a?(String) then x.foo end`. -/
def guardedBody : MethodBody where
  stmts :=
    [.cond (.call 0 (some (.localRead "x".toList)) "is_a?".toList
        [.constantRead "String".toList] false)
      [.call 1 (some (.localRead "x".toList)) "foo".toList [] false] [] false]
  distinct := by decide
  valued := by
    simp [nodesList, nodes, nodesOpt, Node.values]

theorem guardedBody_sheltered : (sceneOf sampleIndex sampleWorld guardedBody).Sheltered where
  blocked := by
    intro node mem
    simp [sceneOf, guardedBody, nodesList, nodes, nodesOpt] at mem
  operands := by
    intro blocked predicate thenBody elseBody isUnless mem
    simp [sceneOf, guardedBody, nodesList, nodes, nodesOpt] at mem
    rcases mem with ⟨rfl, rfl, _⟩
    trivial
  parts := by
    intro blocked mainBody clauses elseBody ensureBody mem
    simp [sceneOf, guardedBody, nodesList, nodes, nodesOpt] at mem
  tests := by
    rintro name _ ⟨constant, _, v, isInstance, notIsA⟩
    rcases isInstance with ⟨rfl, isString⟩
    simp only [sceneOf, sampleWorld] at isString
    split at isString
    · exact absurd (.inl ⟨rfl, ‹_›⟩) notIsA
    · nomatch isString
  unions := by
    intro blocked predicate thenBody elseBody isUnless mem
    simp [sceneOf, guardedBody, nodesList, nodes, nodesOpt] at mem
    rcases mem with ⟨rfl, rfl, _⟩
    constructor
    · intro entry isGuard _ _ many
      rw [List.mem_singleton.mp isGuard] at many
      exact absurd many (by decide)
    · intro entry isGuard
      nomatch isGuard

/-- The guarded call is recorded, and it is only executed on strings. -/
theorem narrowedCalls_sound_guardedBody :
    (classNarrowingPass sampleIndex guardedBody).calls = [(1, "String".toList)] ∧
      NarrowedCallsSound sampleIndex sampleWorld guardedBody :=
  ⟨by decide, narrowedCalls_sound sample_truthful guardedBody_sheltered⟩

/-- `if x.is_a?(String) && (x = y) then x.foo end`. -/
def outdatedBody : MethodBody where
  stmts :=
    [.cond (.logical true
        (.call 0 (some (.localRead "x".toList)) "is_a?".toList
          [.constantRead "String".toList] false)
        (.localWrite "x".toList (.localRead "y".toList)))
      [.call 1 (some (.localRead "x".toList)) "foo".toList [] false] [] false]
  distinct := by decide
  valued := by
    simp [nodesList, nodes, nodesOpt, Node.values, Node.isVoid]

/-- A run through two programs. -/
theorem bind_run {V : Type u} {α β : Type} {m : Run V α} {next : α → Run V β}
    {first rest events : List (Nat × V)} {value : α} {e : Exit Signal β} {s s₁ s' : Text → V}
    (front : m s first (.done value) s₁) (back : next value s₁ rest e s')
    (both : events = first ++ rest) : (m.bind next) s events e s' :=
  ⟨.done value, s₁, first, rest, front, back, both⟩

theorem localCall_run {V : Type} {world : World V} {id : Nat} {name method : Text}
    {args : List Node} {values : List V} {result : V} {s : Text → V}
    (given : runList world args s [] (.done values) s)
    (answer : world.answers (s name) method values result) :
    run world (.call id (some (.localRead name)) method args false) s [(id, s name)]
      (.done result) s := by
  rw [run, runOpt, run]
  have read : ((Prog.read fun s => s name : Run V V).bind fun value => .pure (some value)) s []
      (.done (some (s name))) s := bind_run ⟨rfl, rfl, rfl⟩ ⟨rfl, rfl, rfl⟩ rfl
  have answers : answerCall world (some (s name)) method values s [] (.done result) s :=
    .inr ⟨rfl, rfl, result, answer, rfl⟩
  apply bind_run read _ rfl
  refine .inr ⟨?_, ?_⟩
  · rintro ⟨⟨⟩, _⟩
  · exact bind_run ⟨rfl, rfl, rfl⟩ (bind_run given answers rfl) rfl

/-- The call in the branch is executed on the number that the operand assigned. -/
theorem outdatedBody_unsound :
    Truthful sampleIndex sampleWorld ∧
      ¬NarrowedCallsSound sampleIndex sampleWorld outdatedBody := by
  refine ⟨sample_truthful, ?_⟩
  intro sound
  let before : Text → Sample := fun name => if name = "x".toList then .text else .number
  let after : Text → Sample := Function.update before "x".toList .number
  have isNumber : after "x".toList = .number := by decide
  have constant : runList sampleWorld [.constantRead "String".toList] before []
      (.done [.string]) before := by
    rw [runList, run, runList]
    have named : sampleWorld.constant "String".toList = .string := by decide
    exact bind_run (.inr ⟨rfl, congrArg Exit.done named.symm, rfl⟩)
      (bind_run ⟨rfl, rfl, rfl⟩ ⟨rfl, rfl, rfl⟩ rfl) rfl
  have test : run sampleWorld (.call 0 (some (.localRead "x".toList)) "is_a?".toList
      [.constantRead "String".toList] false) before [(0, before "x".toList)]
      (.done .string) before := by
    apply localCall_run constant
    refine ⟨fun _ => ?_, nofun, nofun, nofun⟩
    decide
  have assign : run sampleWorld (.localWrite "x".toList (.localRead "y".toList)) before []
      (.done .number) after := by
    rw [run, run]
    exact bind_run ⟨rfl, rfl, rfl⟩ (bind_run ⟨rfl, rfl, rfl⟩ ⟨rfl, rfl, rfl⟩ rfl) rfl
  have call : runList sampleWorld [.call 1 (some (.localRead "x".toList)) "foo".toList [] false]
      after [(1, after "x".toList)] (.done [.nil]) after := by
    rw [runList, runList]
    have none_ : runList sampleWorld [] after [] (.done []) after := by
      rw [runList]
      exact ⟨rfl, rfl, rfl⟩
    have answer : sampleWorld.answers (after "x".toList) "foo".toList [] .nil := by
      rintro (isNil | isNot)
      · nomatch isNil
      · nomatch isNot
    exact bind_run (localCall_run none_ answer) (bind_run ⟨rfl, rfl, rfl⟩ ⟨rfl, rfl, rfl⟩ rfl) rfl
  have whole : runList sampleWorld outdatedBody.stmts before
      [(0, before "x".toList), (1, after "x".toList)] (.done [.nil]) after := by
    have predicate : run sampleWorld (.logical true
        (.call 0 (some (.localRead "x".toList)) "is_a?".toList
          [.constantRead "String".toList] false)
        (.localWrite "x".toList (.localRead "y".toList))) before [(0, before "x".toList)]
        (.done .number) after := by
      rw [run]
      exact bind_run test (.inl ⟨⟨fun _ => nofun, fun _ => rfl⟩, assign⟩) rfl
    have taken : sampleWorld.truthy .number ↔ false = false := ⟨fun _ => rfl, fun _ => nofun⟩
    rw [outdatedBody, runList, run, runList]
    exact bind_run (bind_run predicate
      (.inl ⟨taken, bind_run call ⟨rfl, rfl, rfl⟩ rfl⟩) rfl)
      (bind_run ⟨rfl, rfl, rfl⟩ ⟨rfl, rfl, rfl⟩ rfl) rfl
  have narrowed : (1, "String".toList) ∈ (classNarrowingPass sampleIndex outdatedBody).calls := by
    decide
  have wrong := sound _ _ _ _ whole 1 _ (List.mem_cons_of_mem _ List.mem_cons_self) _ narrowed
  rw [isNumber] at wrong
  rcases wrong with ⟨isText, _⟩ | ⟨isNil, _⟩
  · nomatch isText
  · nomatch isNil

end Rigor.Infer.Narrowing
