import Rigor.Infer.Narrowing.Calls

/-!
# Evaluations of predicates

A predicate of `&&`, `||` and `!` evaluates its operands by short circuit.  The recognised ones ask
for the class of a local, the others may do anything.  The classes that the analysis collects for an
edge are those of the values that take it.
-/

namespace Rigor.Infer.Narrowing

open Rigor.Library.Triples

universe u

/-- No `&&`, `||` or `!`. -/
structure IsOperand (node : Node) : Prop where
  notLogical : ∀ isAnd left right, node ≠ .logical isAnd left right
  notNegated : negated node = none

/-- The operands of a predicate below `&&`, `||` and `!`. -/
inductive Operand : Node → Node → Prop where
  | left {node left right : Node} {isAnd : Bool} (below : Operand node left) :
      Operand node (.logical isAnd left right)
  | right {node left right : Node} {isAnd : Bool} (below : Operand node right) :
      Operand node (.logical isAnd left right)
  | negation {node inner : Node} {id : Nat} (below : Operand node inner) :
      Operand node (.call id (some inner) "!".toList [] false)
  | self {node : Node} (isOperand : IsOperand node) : Operand node node

section Evaluation

variable {V : Type u}

/-- What the operands that are not recognised do: the value and the store that one leads to. -/
abbrev Behaviour (V : Type u) := Node → (Text → V) → V → (Text → V) → Prop

/-- The completed evaluations of a predicate. -/
inductive Evaluates (index : Index) (world : World V) (behaviour : Behaviour V) :
    Node → (Text → V) → V → (Text → V) → Prop where
  | left {isAnd : Bool} {left right : Node} {s s₁ : Text → V} {u : V}
      (first : Evaluates index world behaviour left s u s₁) (stops : ¬(isAnd = true ↔ world.truthy u)) :
      Evaluates index world behaviour (.logical isAnd left right) s u s₁
  | right {isAnd : Bool} {left right : Node} {s s₁ s₂ : Text → V} {u v : V}
      (first : Evaluates index world behaviour left s u s₁) (goesOn : isAnd = true ↔ world.truthy u)
      (second : Evaluates index world behaviour right s₁ v s₂) :
      Evaluates index world behaviour (.logical isAnd left right) s v s₂
  | negation {id : Nat} {inner : Node} {s s₁ : Text → V} {v r : V}
      (first : Evaluates index world behaviour inner s v s₁) (answer : world.answers v "!".toList [] r) :
      Evaluates index world behaviour (.call id (some inner) "!".toList [] false) s r s₁
  | atom {node : Node} {edges : GuardMap × GuardMap} {s : Text → V} {r : V}
      (recognised : index.guardPredicate node = some edges) (answers : AtomAnswers world s node r) :
      Evaluates index world behaviour node s r s
  | other {node : Node} {s s₁ : Text → V} {v : V} (operand : IsOperand node)
      (unrecognised : index.guardPredicate node = none) (does : behaviour node s v s₁) :
      Evaluates index world behaviour node s v s₁

/-- The names of the class of a value. -/
structure Naming (world : World V) where
  exactly : V → Text → Prop
  isA : ∀ v className, exactly v className → world.isA v className

/-- The class of a value is one of the guard, and is below one of them unless the guard is exact. -/
def GuardFact.Fits {world : World V} (naming : Naming world) (guard : GuardFact) (v : V) : Prop :=
  ∃ className ∈ guard.classes,
    if guard.exact = true then naming.exactly v className else world.isA v className

/-- At run time the constant is the class that its spelling resolves to. -/
structure Naming.Denotes {world : World V} (naming : Naming world) (index : Index) (constant : Text) :
    Prop where
  isA : ∀ v, world.instanceOf v (world.constant constant) →
    world.isA v (index.resolveConstantAsWritten constant)
  exactly : ∀ v, world.classOf v (world.constant constant) →
    naming.exactly v (index.resolveConstantAsWritten constant)

/-- The recognised operands test the local against such constants. -/
def Naming.ReadsTests {world : World V} (naming : Naming world) (index : Index) (predicate : Node)
    (name : Text) : Prop :=
  ∀ node constant, Operand node predicate → index.guardPredicate node ≠ none →
    (name, constant) ∈ node.tests → naming.Denotes index constant

/-- The other operands do not rebind the local. -/
def Index.LeavesAlone (index : Index) (behaviour : Behaviour V) (predicate : Node) (name : Text) : Prop :=
  ∀ node, Operand node predicate → index.guardPredicate node = none →
    ∀ s v s', behaviour node s v s' → s' name = s name

variable {index : Index} {world : World V} {naming : Naming world} {behaviour : Behaviour V} {name : Text}
  {predicate : Node} {s s' : Text → V} {v : V}

/-- A local that the operands leave alone keeps its value. -/
theorem Evaluates.frame (evaluates : Evaluates index world behaviour predicate s v s')
    (alone : index.LeavesAlone behaviour predicate name) : s' name = s name := by
  induction evaluates with
  | left _ _ ih => exact ih fun node below => alone node (.left below)
  | right _ _ _ ih ih' =>
      exact (ih' fun node below => alone node (.right below)).trans
        (ih fun node below => alone node (.left below))
  | negation _ _ ih => exact ih fun node below => alone node (.negation below)
  | atom _ _ => rfl
  | other operand unrecognised does => exact alone _ (.self operand) unrecognised _ _ _ does

theorem isOperand_of_guardPredicate {node : Node} {edges : GuardMap × GuardMap}
    (found : index.guardPredicate node = some edges) : IsOperand node := by
  rcases guardPredicate_cases found with
    ⟨id, name, constant, method, isTest, named, rfl, -⟩ |
    ⟨id, name, constant, named, unshadowed, rfl, -⟩ |
    ⟨id, receiver, arg, name, compared, rfl, -⟩ |
    ⟨id, receiver, arg, name, compared, rfl, -⟩ | ⟨id, name, rfl, -⟩
  all_goals exact ⟨by rintro _ _ _ ⟨⟩, rfl⟩

theorem IsOperand.edgesAt {node : Node} (operand : IsOperand node) (index : Index) (depth : Nat) :
    index.edgesAt (depth + 1) node = (index.guardPredicate node).getD ([], []) := by
  rw [index.edgesAt_of_not_logical depth operand.notLogical, operand.notNegated]

/-! ## Guards that fit -/

/-- More classes fit, and not only their own instances. -/
theorem GuardFact.Fits.weaken {first second : GuardFact} (fits : first.Fits naming v)
    (classes : ∀ className ∈ first.classes, className ∈ second.classes)
    (exact_ : second.exact = true → first.exact = true) : second.Fits naming v := by
  rcases fits with ⟨className, mem, isClass⟩
  refine ⟨className, classes className mem, ?_⟩
  split
  · next isExact => rwa [if_pos (exact_ isExact)] at isClass
  · split at isClass
    · exact naming.isA v className isClass
    · exact isClass

/-- The guards of the local fit its value. -/
def FitsLocal (naming : Naming world) (name : Text) (s : Text → V) (entry : Text × GuardFact) : Prop :=
  entry.1 = name → entry.2.Fits naming (s name)

theorem joinsHold_fitsLocal (s : Text → V) : JoinsHold (FitsLocal naming name s) := by
  intro first second either entry mem isName
  rcases mem_joinGuards mem with ⟨a, b, inFirst, inSecond, classes, -, exact_⟩
  rcases either with left | right
  · apply (left _ inFirst isName).weaken
    · exact fun className member => (classes className).mpr (.inl member)
    · exact fun isExact => (exact_.mp isExact).1
  · apply (right _ inSecond isName).weaken
    · exact fun className member => (classes className).mpr (.inr member)
    · exact fun isExact => (exact_.mp isExact).2

theorem fitsLocal_of_witnessed (truthful : Truthful index world) {node : Node}
    (denotes : ∀ constant, (name, constant) ∈ node.tests → naming.Denotes index constant)
    {entry : Text × GuardFact} (witnessed : Witnessed index world node s entry) :
    FitsLocal naming name s entry := by
  rintro rfl
  rcases witnessed with ⟨constant, tested, classes, isInstance, isExact⟩ | ⟨isNilFact, isNil⟩
  · refine ⟨index.resolveConstantAsWritten constant, by simp [classes], ?_⟩
    split
    · next exact_ => exact (denotes constant tested).exactly _ (isExact exact_)
    · exact (denotes constant tested).isA _ isInstance
  · rw [isNilFact, isNil]
    exact ⟨_, List.mem_singleton_self _, truthful.nilClass⟩

/-- The guards of the edge that an evaluation takes fit, at every depth. -/
theorem edgesAt_fit (truthful : Truthful index world)
    (evaluates : Evaluates index world behaviour predicate s v s')
    (alone : index.LeavesAlone behaviour predicate name) (reads : naming.ReadsTests index predicate name)
    (depth : Nat) :
    EdgeHolds (FitsLocal naming name s') (world.truthy v) (index.edgesAt depth predicate) := by
  induction evaluates generalizing depth with
  | @left isAnd left right s s₁ u first stops ih =>
      cases depth with
      | zero => exact .none
      | succ depth =>
          rcases index.edgesAt_logical depth isAnd left right with none | ⟨-, edges⟩
          · rw [none]
            exact .none
          · rw [edges]
            apply EdgeHolds.logical_left (joinsHold_fitsLocal s₁) _ stops
            exact ih (fun node below => alone node (.left below))
              (fun node constant below => reads node constant (.left below)) depth
  | @right isAnd left right s s₁ s₂ u v first goesOn second ih ih' =>
      cases depth with
      | zero => exact .none
      | succ depth =>
          rcases index.edgesAt_logical depth isAnd left right with none | ⟨-, edges⟩
          · rw [none]
            exact .none
          · rw [edges]
            have aloneRight : index.LeavesAlone behaviour right name := fun node below => alone node (.right below)
            have before := ih (fun node below => alone node (.left below))
              (fun node constant below => reads node constant (.left below)) depth
            apply EdgeHolds.logical_right (joinsHold_fitsLocal s₂)
            · intro entry mem isName
              rw [second.frame aloneRight]
              cases isAnd with
              | true => exact before.1 (goesOn.mp rfl) entry mem isName
              | false => exact before.2 (fun here => Bool.noConfusion (goesOn.mpr here)) entry mem isName
            · exact ih' aloneRight (fun node constant below => reads node constant (.right below)) depth
  | @negation id inner s s₁ v r first answer ih =>
      cases depth with
      | zero => exact .none
      | succ depth =>
          rw [index.edgesAt_of_not_logical depth (by rintro _ _ _ ⟨⟩)]
          have taken := ih (fun node below => alone node (.negation below))
            (fun node constant below => reads node constant (.negation below)) depth
          exact taken.swap (truthful.not v r answer)
  | @atom node edges s r recognised answers =>
      cases depth with
      | zero => exact .none
      | succ depth =>
          have operand := isOperand_of_guardPredicate recognised
          rw [operand.edgesAt index depth, recognised]
          apply (guardPredicate_witnessed truthful recognised answers).mono
          apply fitsLocal_of_witnessed truthful
          exact fun constant => reads node constant (.self operand) (by simp [recognised])
  | @other node s s₁ v operand unrecognised does =>
      cases depth with
      | zero => exact .none
      | succ depth =>
          rw [operand.edgesAt index depth, unrecognised]
          exact .none

/-- Every guard that the analysis finds for an edge fits the value of its local whenever an
evaluation takes the edge, if the other operands leave the local alone and its tests name the
classes that they are resolved to. -/
theorem analysePredicate_sound (naming : Naming world) (truthful : Truthful index world) {depth : Nat}
    {edges : GuardMap × GuardMap} (analysed : index.analysePredicate depth predicate = some edges)
    (evaluates : Evaluates index world behaviour predicate s v s') :
    EdgeHolds (fun entry => index.LeavesAlone behaviour predicate entry.1 →
      naming.ReadsTests index predicate entry.1 → entry.2.Fits naming (s' entry.1)) (world.truthy v) edges := by
  have edgesAt : index.edgesAt depth predicate = edges := by rw [Index.edgesAt, analysed, Option.getD_some]
  constructor
  · intro here entry mem alone reads
    have taken := edgesAt_fit truthful evaluates alone reads depth
    rw [edgesAt] at taken
    exact taken.1 here entry mem rfl
  · intro here entry mem alone reads
    have taken := edgesAt_fit truthful evaluates alone reads depth
    rw [edgesAt] at taken
    exact taken.2 here entry mem rfl

/-! ## Runs are evaluations -/

/-- An operand behaves as its runs. -/
def completes (world : World V) : Behaviour V :=
  fun node s v s' => ∃ events, run world node s events (.done v) s'

theorem evaluates_of_run (node : Node) (s : Text → V) :
    Triple (· = s) (run world node) anyEvent
      (onDone fun v s' => Evaluates index world (completes world) node s v s') := by
  induction size : sizeOf node using Nat.strong_induction_on generalizing node s with
  | _ size' ih =>
    by_cases isLogical : ∃ isAnd left right, node = .logical isAnd left right
    · rcases isLogical with ⟨isAnd, left, right, rfl⟩
      rw [Node.logical.sizeOf_spec] at size
      rw [run]
      apply Triple.bindDone (ih (sizeOf left) (by omega) left s rfl)
      intro u
      apply Triple.either
      · apply Triple.assuming
        intro goesOn
        apply Triple.of_start
        intro s₁ first
        apply (ih (sizeOf right) (by omega) right s₁ rfl).weakenDone
        exact fun v s₂ second => .right first goesOn second
      · apply Triple.assuming
        intro stops
        exact Triple.pure fun s₁ first => .left first stops
    · have notLogical : ∀ isAnd left right, node ≠ .logical isAnd left right :=
        fun isAnd left right same => isLogical ⟨isAnd, left, right, same⟩
      cases isNegated : negated node with
      | some inner =>
          rcases negated_eq_some isNegated with ⟨id, rfl⟩
          rw [Node.call.sizeOf_spec, Option.some.sizeOf_spec] at size
          apply (run_unary (ih (sizeOf inner) (by omega) inner s rfl)).weakenDone
          rintro r s₁ ⟨v, first, answer⟩
          exact .negation first answer
      | none =>
          cases recognised : index.guardPredicate node with
          | some edges =>
              apply (run_atom recognised s).weakenDone
              rintro r s' ⟨rfl, answers⟩
              exact .atom recognised answers
          | none =>
              rintro s events e s' rfl isRun
              refine ⟨fun _ _ => trivial, ?_⟩
              cases e with
              | aborted _ => trivial
              | done v => exact .other ⟨notLogical, isNegated⟩ recognised ⟨events, isRun⟩

theorem Operand.nodes_subset {node : Node} (below : Operand node predicate) (blocked : Bool) :
    nodes node blocked ⊆ nodes predicate blocked := by
  induction below with
  | left _ ih =>
      rw [nodes]
      exact fun entry mem => List.mem_cons_of_mem _ (List.mem_append_left _ (ih mem))
  | right _ ih =>
      rw [nodes]
      exact fun entry mem => List.mem_cons_of_mem _ (List.mem_append_right _ (ih mem))
  | negation _ ih =>
      rw [nodes, nodesOpt]
      exact fun entry mem => List.mem_cons_of_mem _ (List.mem_append_left _ (ih mem))
  | self _ => exact List.Subset.refl _

/-- In runs of a body, an operand that does not assign the local leaves it alone. -/
theorem leavesAlone_completes {blocked : Bool} (unassigned : name ∉ assignedIn (nodes predicate blocked)) :
    index.LeavesAlone (completes world) predicate name := by
  rintro node below - s v s' ⟨events, isRun⟩
  have agrees : Agrees s (assignedIn (nodes node blocked)) s' := (run_frame node blocked rfl isRun).2
  apply agrees
  intro assigned
  rcases List.mem_flatMap.mp assigned with ⟨entry, mem, here⟩
  exact unassigned (List.mem_flatMap.mpr ⟨entry, below.nodes_subset blocked mem, here⟩)

/-- The guards of the edge that a run of a body takes fit. -/
theorem edgesAt_fit_of_run (truthful : Truthful index world) {blocked : Bool} {events : List (Nat × V)}
    (isRun : run world predicate s events (.done v) s')
    (unassigned : name ∉ assignedIn (nodes predicate blocked))
    (reads : naming.ReadsTests index predicate name) (depth : Nat) :
    EdgeHolds (FitsLocal naming name s') (world.truthy v) (index.edgesAt depth predicate) :=
  edgesAt_fit truthful (evaluates_of_run predicate s rfl isRun).2 (leavesAlone_completes unassigned) reads depth

end Evaluation

/-! ## A constant that the project shadows -/

def sampleNaming : Naming sampleWorld where
  exactly := sampleWorld.isA
  isA _ _ := id

/-- Each operand is a value and changes nothing. -/
def sampleBehaviour : Behaviour Sample :=
  fun _ s _ s' => s' = s

/-- `x.is_a?(String)`. -/
def sampleTest : Node :=
  .call 0 (some (.localRead "x".toList)) "is_a?".toList [.constantRead "String".toList] false

/-- `x.is_a?(String) && y.empty?`. -/
def samplePredicate : Node :=
  .logical true sampleTest (.call 1 (some (.localRead "y".toList)) "empty?".toList [] false)

def stringGuard : GuardFact :=
  { classes := ["String".toList], exact := false, mintable := true }

def sampleStore : Text → Sample :=
  fun _ => .text

theorem sampleTest_answers : AtomAnswers sampleWorld sampleStore sampleTest .text := by
  refine ⟨0, _, _, _, .text, [.string], rfl, rfl, rfl, ?_, ?_, ?_, ?_⟩
  all_goals decide

theorem denotes_sample (constant : Text) : sampleNaming.Denotes sampleIndex constant := by
  have isA : ∀ v, sampleWorld.instanceOf v (sampleWorld.constant constant) →
      sampleWorld.isA v (sampleIndex.resolveConstantAsWritten constant) := by
    rintro v ⟨rfl, isString⟩
    simp only [sampleWorld] at isString
    split at isString
    · next named => exact .inl ⟨rfl, named⟩
    · contradiction
  exact ⟨isA, isA⟩

/-- The predicate is true of a string, and its guard fits. -/
theorem analysePredicate_sound_sample : stringGuard.Fits sampleNaming (sampleStore "x".toList) := by
  have analysed : sampleIndex.analysePredicate 64 samplePredicate = some ([("x".toList, stringGuard)], []) := by
    decide
  have recognised : sampleIndex.guardPredicate sampleTest = some ([("x".toList, stringGuard)], []) := by
    decide
  have first : Evaluates sampleIndex sampleWorld sampleBehaviour sampleTest sampleStore .text sampleStore :=
    .atom recognised sampleTest_answers
  have second : Evaluates sampleIndex sampleWorld sampleBehaviour
      (.call 1 (some (.localRead "y".toList)) "empty?".toList [] false) sampleStore .text sampleStore :=
    .other ⟨by rintro _ _ _ ⟨⟩, rfl⟩ rfl rfl
  have isTruthy : sampleWorld.truthy .text := by rintro ⟨⟩
  have evaluates : Evaluates sampleIndex sampleWorld sampleBehaviour samplePredicate
      sampleStore .text sampleStore :=
    .right first (iff_of_true rfl isTruthy) second
  have taken := analysePredicate_sound sampleNaming sample_truthful analysed evaluates
  apply taken.1 isTruthy ("x".toList, stringGuard) (List.mem_singleton_self _)
  · rintro node - - s v s' rfl
    rfl
  · exact fun _ constant _ _ _ => denotes_sample constant

/-- A method of a module `Proj` that declares a class `String`. -/
def shadowIndex : Index :=
  { sampleIndex with
    knownClass := (· == "String".toList)
    constantShadowed := (· == "String".toList)
    enclosing := ["Proj".toList] }

/-- `String` is the class of the project. -/
def shadowWorld : World Sample :=
  { sampleWorld with
    constant := fun name => if name = "String".toList then .string else .nil
    isA := fun v className => v = .nil ∧ className = "NilClass".toList }

theorem shadow_truthful : Truthful shadowIndex shadowWorld :=
  { sample_truthful with
    nilClass := ⟨rfl, rfl⟩
    constant := by
      rintro name v - unshadowed ⟨-, isString⟩
      simp only [shadowWorld] at isString
      split at isString
      · next named =>
        rw [named] at unshadowed
        contradiction
      · contradiction
    caseEq := fun _ _ _ _ _ answer => answer.2.1 rfl }

def shadowNaming : Naming shadowWorld where
  exactly := shadowWorld.isA
  isA _ _ := id

/-- The guard is on the `String` of the class table, which is not the class of the value. -/
theorem not_sound_shadowed : ¬ ∀ (index : Index) (world : World Sample) (naming : Naming world)
    (behaviour : Behaviour Sample) (predicate : Node) (depth : Nat) (edges : GuardMap × GuardMap)
    (s s' : Text → Sample) (v : Sample), Truthful index world →
      (∀ name, index.LeavesAlone behaviour predicate name) →
        index.analysePredicate depth predicate = some edges →
          Evaluates index world behaviour predicate s v s' →
            EdgeHolds (fun entry => entry.2.Fits naming (s' entry.1)) (world.truthy v) edges := by
  intro claim
  let guard : GuardFact := { classes := ["String".toList], exact := false, mintable := false }
  have analysed : shadowIndex.analysePredicate 64 sampleTest = some ([("x".toList, guard)], []) := by
    decide
  have recognised : shadowIndex.guardPredicate sampleTest = some ([("x".toList, guard)], []) := by
    decide
  have answers : AtomAnswers shadowWorld sampleStore sampleTest .text := by
    refine ⟨0, _, _, _, .text, [.string], rfl, rfl, rfl, ?_, ?_, ?_, ?_⟩
    all_goals decide
  have alone : ∀ name, shadowIndex.LeavesAlone sampleBehaviour sampleTest name := by
    rintro name node - - s v s' rfl
    rfl
  have taken := claim shadowIndex shadowWorld shadowNaming sampleBehaviour sampleTest 64 _ sampleStore
    sampleStore .text shadow_truthful alone analysed (.atom recognised answers)
  have isTruthy : shadowWorld.truthy .text := by rintro ⟨⟩
  rcases taken.1 isTruthy ("x".toList, guard) (List.mem_singleton_self _) with ⟨className, -, isNil, -⟩
  contradiction

end Rigor.Infer.Narrowing
