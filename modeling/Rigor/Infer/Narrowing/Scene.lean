import Rigor.Infer.Narrowing.Calm
import Rigor.Infer.Narrowing.Runs

/-!
# Guards in a run

Facts hold of a store if each narrowed local has an instance of its class.  Guards that are
true of the store keep the facts true, and the guards of an edge of a predicate are true
whenever a run takes that edge.
-/

namespace Rigor.Infer.Narrowing

open Rigor.Library.Triples

universe u

/-- What a truthful world answers: the class tests, the tests for `nil`, `!`, and constants
that no project declaration shadows. -/
structure Truthful {V : Type u} (index : Index) (world : World V) : Prop where
  nilClass : world.isA world.nil "NilClass".toList
  classOf : ∀ v k, world.classOf v k → world.instanceOf v k
  constant : ∀ name v, name ≠ [] → index.constantShadowed name = false →
    world.instanceOf v (world.constant name) → world.isA v (index.resolveConstantAsWritten name)
  isA : ∀ method v k r, method = "is_a?".toList ∨ method = "kind_of?".toList →
    world.answers v method [k] r → (world.truthy r ↔ world.instanceOf v k)
  instanceOf : ∀ v k r, world.answers v "instance_of?".toList [k] r →
    (world.truthy r ↔ world.classOf v k)
  caseEq : ∀ name v r, name ≠ [] → index.constantShadowed name = false →
    world.answers (world.constant name) "===".toList [v] r →
    (world.truthy r ↔ world.instanceOf v (world.constant name))
  isNil : ∀ v r, world.answers v "nil?".toList [] r → (world.truthy r ↔ v = world.nil)
  eqNil : ∀ v w r, v = world.nil ∨ w = world.nil → world.answers v "==".toList [w] r →
    (world.truthy r ↔ v = w)
  neNil : ∀ v w r, v = world.nil ∨ w = world.nil → world.answers v "!=".toList [w] r →
    (world.truthy r ↔ v ≠ w)
  not : ∀ v r, world.answers v "!".toList [] r → (world.truthy r ↔ ¬world.truthy v)

/-- A local and a constant that a node tests it against. -/
def testedPair (subject constant : Node) : List (Text × Text) :=
  match bareLocal subject, constant with
  | some name, .constantRead constant => [(name, constant)]
  | _, _ => []

/-- The class tests of a node: a local with a constant. -/
def Node.tests : Node → List (Text × Text)
  | .call _ (some receiver) method [arg] _ =>
      if isClassTest method then testedPair receiver arg
      else if method = "===".toList then testedPair arg receiver
      else []
  | .case_ (some subject) branches _ =>
      branches.flatMap fun
        | .mk constant _ => testedPair subject (.constantRead constant)
  | _ => []

/-- An index, a world, the coarse locals and the nodes of a body. -/
structure Scene (V : Type u) where
  index : Index
  world : World V
  coarse : List Text
  all : List (Bool × Node)

namespace Scene

variable {V : Type u} (scene : Scene V)

def Tests (name constant : Text) : Prop :=
  ∃ entry ∈ scene.all, (name, constant) ∈ entry.2.tests

/-- The constant is bound to a class whose instances are not all of the class that its
spelling resolves to. -/
def Misnames (constant : Text) : Prop :=
  ∃ v, scene.world.instanceOf v (scene.world.constant constant) ∧
    ¬scene.world.isA v (scene.index.resolveConstantAsWritten constant)

/-- The local is tested against a misnaming constant. -/
def Misread (name : Text) : Prop :=
  ∃ constant, scene.Tests name constant ∧ scene.Misnames constant

/-- The classes a test of the local can assert. -/
def Asserts (name className : Text) : Prop :=
  className = "NilClass".toList ∨
    ∃ constant, scene.Tests name constant ∧
      className = scene.index.resolveConstantAsWritten constant

/-- Every narrowed local has an instance of its class. -/
def Holds (facts : Facts) (s : Text → V) : Prop :=
  ∀ name className, facts name = some (.narrowed className) →
    name ∉ scene.coarse ∧ ¬scene.Misread name ∧ scene.Asserts name className ∧
      scene.world.isA (s name) className

/-- A guard that mints is on a local that is not misread, and asserts classes of its tests. -/
def Known (entry : Text × GuardFact) : Prop :=
  entry.1 ∉ scene.coarse →
    (entry.2.mintable = true → ¬scene.Misread entry.1) ∧
      ∀ className ∈ entry.2.classes, scene.Asserts entry.1 className

def Fulfilled (s : Text → V) (entry : Text × GuardFact) : Prop :=
  entry.1 ∉ scene.coarse → ¬scene.Misread entry.1 →
    ∃ className ∈ entry.2.classes, scene.world.isA (s entry.1) className

/-- No class of a union shares an instance with a class of the local's tests that the index
holds for disjoint from it. -/
def Apart (entry : Text × GuardFact) : Prop :=
  entry.1 ∉ scene.coarse → entry.2.exact = false → 2 ≤ entry.2.classes.length →
    ∀ className ∈ entry.2.classes, ∀ carrier, scene.Asserts entry.1 carrier →
      scene.index.classOrdering carrier className = .disjoint →
        ∀ v, ¬(scene.world.isA v carrier ∧ scene.world.isA v className)

end Scene

section Meet

variable {V : Type u} {scene : Scene V}

theorem Scene.Holds.of_narrower {first second : Facts} {s : Text → V}
    (holds : scene.Holds second s) (narrower : Narrower first second) : scene.Holds first s :=
  fun name className narrowed => holds name className (narrower name className narrowed)

theorem Scene.Holds.fine {facts : Facts} {s : Text → V} (holds : scene.Holds facts s) :
    Fine scene.coarse facts :=
  fun name className narrowed => (holds name className narrowed).1

/-- Facts that spare what a run may have changed hold after it. -/
theorem Scene.Holds.of_spares {first second : Facts} {names : List Text} {start s : Text → V}
    (holds : scene.Holds second start) (spares : Spares first second names)
    (agrees : Agrees start names s) : scene.Holds first s := by
  intro name className narrowed
  have kept := spares name className narrowed
  have before := holds name className kept.1
  refine ⟨before.1, before.2.1, before.2.2.1, ?_⟩
  rw [agrees name kept.2]
  exact before.2.2.2

/-- What survives of a union is what the value is an instance of. -/
theorem isA_of_meetMember {entry : Text × GuardFact} {carrier one : Text} {v : V}
    (apart : scene.Apart entry) (notCoarse : entry.1 ∉ scene.coarse)
    (many : 2 ≤ entry.2.classes.length) (asserts : scene.Asserts entry.1 carrier)
    (known : ∀ className ∈ entry.2.classes, scene.Asserts entry.1 className)
    (isCarrier : scene.world.isA v carrier)
    (guarded : ∃ className ∈ entry.2.classes, scene.world.isA v className)
    (ordered : ∀ className ∈ entry.2.classes,
      entry.2.exact = true ∨ scene.index.classOrdering carrier className ≠ .unknown)
    (only : ∀ survivor ∈ entry.2.classes.filterMap
      (scene.index.meetMember carrier entry.2.exact), survivor = one)
    (survived : one ∈ entry.2.classes.filterMap (scene.index.meetMember carrier entry.2.exact)) :
    scene.world.isA v one ∧ scene.Asserts entry.1 one := by
  rcases guarded with ⟨className, mem, isClass⟩
  by_cases exact : entry.2.exact = true
  · rcases List.mem_filterMap.mp survived with ⟨other, _, met⟩
    simp only [Index.meetMember, exact, ↓reduceIte] at met
    split at met
    · rw [← Option.some.inj met]
      exact ⟨isCarrier, asserts⟩
    · nomatch met
  · have notExact : entry.2.exact = false := by simpa using exact
    have survives : ∀ survivor,
        scene.index.meetMember carrier entry.2.exact className = some survivor →
          survivor = one :=
      fun survivor met => only survivor (List.mem_filterMap.mpr ⟨className, mem, met⟩)
    simp only [Index.meetMember, notExact, Bool.false_eq_true, ↓reduceIte] at survives
    cases ordering : scene.index.classOrdering carrier className with
    | disjoint =>
        exact absurd ⟨isCarrier, isClass⟩
          (apart notCoarse notExact many className mem carrier asserts ordering v)
    | unknown =>
        rcases ordered className mem with isExact | known_
        · exact absurd isExact exact
        · exact absurd ordering known_
    | superclass =>
        rw [ordering] at survives
        rw [← survives className rfl]
        exact ⟨isClass, known className mem⟩
    | equal =>
        rw [ordering] at survives
        rw [← survives carrier rfl]
        exact ⟨isCarrier, asserts⟩
    | subclass =>
        rw [ordering] at survives
        rw [← survives carrier rfl]
        exact ⟨isCarrier, asserts⟩

/-- The class that a guard leaves a narrowed local. -/
theorem isA_of_narrowNominal {entry : Text × GuardFact} {carrier className : Text} {v : V}
    (apart : scene.Apart entry) (notCoarse : entry.1 ∉ scene.coarse)
    (asserts : scene.Asserts entry.1 carrier)
    (known : ∀ className ∈ entry.2.classes, scene.Asserts entry.1 className)
    (isCarrier : scene.world.isA v carrier)
    (guarded : ∃ className ∈ entry.2.classes, scene.world.isA v className)
    (narrowed : scene.index.narrowNominalToClass carrier entry.2 = some (.narrowed className)) :
    scene.world.isA v className ∧ scene.Asserts entry.1 className := by
  unfold Index.narrowNominalToClass at narrowed
  split at narrowed
  · rename_i only single
    have inClass : scene.world.isA v only ∧ scene.Asserts entry.1 only := by
      rcases guarded with ⟨found, mem, isFound⟩
      rw [single] at mem
      have same := List.mem_singleton.mp mem
      rw [same] at isFound
      exact ⟨isFound, known only (single ▸ List.mem_singleton_self only)⟩
    have inCarrier : scene.world.isA v carrier ∧ scene.Asserts entry.1 carrier :=
      ⟨isCarrier, asserts⟩
    split at narrowed
    · simp only [Option.some.injEq, ClassFact.narrowed.injEq] at narrowed
      exact narrowed ▸ inCarrier
    · split at narrowed
      · cases narrowed
      · split at narrowed
        · simp only [Option.some.injEq, ClassFact.narrowed.injEq] at narrowed
          exact narrowed ▸ inCarrier
        · simp only [Option.some.injEq, ClassFact.narrowed.injEq] at narrowed
          exact narrowed ▸ inCarrier
        · simp only [Option.some.injEq, ClassFact.narrowed.injEq] at narrowed
          exact narrowed ▸ inClass
        · cases narrowed
        · cases narrowed
  · rename_i notSingle
    split at narrowed
    · cases narrowed
    · rename_i ordered
      split at narrowed
      · cases narrowed
      · rename_i one survivors
        have members : ∀ survivor, survivor ∈ entry.2.classes.filterMap
            (scene.index.meetMember carrier entry.2.exact) ↔ survivor = one := by
          intro survivor
          rw [← List.mem_eraseDups, survivors, List.mem_singleton]
        have many : 2 ≤ entry.2.classes.length := by
          rcases guarded with ⟨found, mem, _⟩
          rcases listed : entry.2.classes with _ | ⟨single, _ | ⟨_, rest⟩⟩
          · rw [listed] at mem
            cases mem
          · exact absurd listed (notSingle single)
          · simp
        have knows : ∀ className ∈ entry.2.classes, entry.2.exact = true ∨
            scene.index.classOrdering carrier className ≠ .unknown := by
          intro other mem
          simp only [List.any_eq_true, not_exists, not_and, Bool.and_eq_true,
            Bool.not_eq_true', beq_iff_eq] at ordered
          by_cases exact : entry.2.exact = true
          · exact .inl exact
          · exact .inr (ordered other mem (by simpa using exact))
        simp only [Option.some.injEq, ClassFact.narrowed.injEq] at narrowed
        exact narrowed ▸ isA_of_meetMember apart notCoarse many asserts known isCarrier guarded
          knows (fun survivor mem => (members survivor).mp mem) ((members one).mpr rfl)
      · cases narrowed

/-- A true guard keeps the facts true. -/
theorem applyGuard_holds {types : Types} {conflicts : Bool} {entry : Text × GuardFact}
    {facts : Facts} {s : Text → V} (holds : scene.Holds facts s) (known : scene.Known entry)
    (isTrue : scene.Fulfilled s entry) (apart : scene.Apart entry) :
    scene.Holds
      (applyGuard scene.index scene.coarse types conflicts entry.1 entry.2 facts) s := by
  intro name className narrowed
  rcases narrowed_of_applyGuard narrowed with ⟨_, before⟩ | ⟨rfl, carrier, before, met⟩ |
    ⟨rfl, notCoarse, mintable, single⟩
  · exact holds name className before
  · have was := holds _ carrier before
    have result := isA_of_narrowNominal apart was.1 was.2.2.1 (known was.1).2 was.2.2.2
      (isTrue was.1 was.2.1) met
    exact ⟨was.1, was.2.1, result.2, result.1⟩
  · have wellRead := (known notCoarse).1 mintable
    rcases isTrue notCoarse wellRead with ⟨found, mem, isFound⟩
    have asserts := (known notCoarse).2 found mem
    rw [single, List.mem_singleton] at mem
    subst mem
    exact ⟨notCoarse, wellRead, asserts, isFound⟩

theorem applyGuards_holds {types : Types} {guards asserted : GuardMap} {facts : Facts}
    {s : Text → V} (holds : scene.Holds facts s) (known : ∀ entry ∈ guards, scene.Known entry)
    (isTrue : ∀ entry ∈ guards, scene.Fulfilled s entry)
    (apart : ∀ entry ∈ guards, scene.Apart entry) :
    scene.Holds (applyGuards scene.index scene.coarse types guards asserted facts) s := by
  induction guards generalizing asserted facts with
  | nil => exact holds
  | cons entry rest ih =>
      apply ih
      · exact applyGuard_holds holds (known _ List.mem_cons_self) (isTrue _ List.mem_cons_self)
          (apart _ List.mem_cons_self)
      · exact fun other mem => known other (List.mem_cons_of_mem _ mem)
      · exact fun other mem => isTrue other (List.mem_cons_of_mem _ mem)
      · exact fun other mem => apart other (List.mem_cons_of_mem _ mem)

end Meet

end Rigor.Infer.Narrowing
