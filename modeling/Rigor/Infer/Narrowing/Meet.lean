import Rigor.Index.ClassOrdering
import Rigor.Infer.Narrowing.Guards
import Rigor.Library.Runs

/-!
# The meet of guards

What a sequence of guards leaves of a narrowed local.  The verdicts on two class names come from
the class table, and a class of the table can be inside both of two names that are not related.
-/

namespace Rigor.Infer.Narrowing

open Rigor.Index (CoreData)
open Rigor.Library.Runs (foldl_front_iff)

universe u

/-- A verdict of the table. -/
def ClassOrdering.ofTable : Rigor.Index.ClassOrdering → ClassOrdering
  | .equal => .equal
  | .subclass => .subclass
  | .superclass => .superclass
  | .disjoint => .disjoint
  | .unknown => .unknown

namespace Index

variable {Def : Type u} {index : Index} {data : CoreData Def} {carrier name : Text} {guard : GuardFact}

/-- The index orders two names as the table does. -/
def Reads (index : Index) (data : CoreData Def) : Prop :=
  ∀ lhs rhs, (data.classOrdering lhs rhs).map ClassOrdering.ofTable = some (index.classOrdering lhs rhs)

/-- A guard on what is known of a local.  Only a class can be narrowed further. -/
def meet (index : Index) (fact : Option ClassFact) (guard : GuardFact) : Option ClassFact :=
  match fact with
  | some (.narrowed carrier) => index.narrowNominalToClass carrier guard
  | fact => fact

theorem guardMeetPrecise_of_untyped {types : Types} {facts : Facts} (isUntyped : untypedLocal types name = true)
    (className : Text) (exact : Bool) :
    index.guardMeetPrecise types facts name className exact =
      if facts name = some .bot ∨ facts name = some .widened then facts name else none := by
  rw [guardMeetPrecise]
  rw [untypedLocal] at isUntyped
  split at isUntyped
  · next noType =>
      rw [noType]
      split <;> simp_all
  · next dynamic =>
      rw [dynamic]
      split <;> simp_all
  · contradiction

/-- The guard of an edge on a local of unknown type is the meet. -/
theorem applyGuard_eq_meet {coarse : List Text} {types : Types} {facts : Facts}
    (isUntyped : untypedLocal types name = true) (known : facts name ≠ none) :
    applyGuard index coarse types false name guard facts name = index.meet (facts name) guard := by
  simp only [applyGuard, guardMeetPrecise_of_untyped isUntyped]
  rcases fact : facts name with _ | className | _ | _
  · exact absurd fact known
  · simp [meet]
  · rcases guard.classes with _ | ⟨first, rest⟩ <;> simp [fact, meet]
  · rcases guard.classes with _ | ⟨first, rest⟩ <;> simp [fact, meet]

/-! ## Verdicts of the table -/

namespace Reads

theorem equal_self (reads : index.Reads data) : index.classOrdering name name = .equal := by
  have read := reads name name
  rw [CoreData.equal_iff.mpr rfl] at read
  exact (Option.some.inj read).symm

/-- What the table answers is the verdict that the index reads. -/
theorem table (reads : index.Reads data) (lhs rhs : Text) : ∃ verdict,
    data.classOrdering lhs rhs = some verdict ∧ ClassOrdering.ofTable verdict = index.classOrdering lhs rhs :=
  Option.map_eq_some_iff.mp (reads lhs rhs)

/-- A name that is held for the same or a subclass is inside. -/
theorem inside_of_above (reads : index.Reads data) {lhs rhs : Text}
    (ordered : index.classOrdering lhs rhs = .equal ∨ index.classOrdering lhs rhs = .subclass) :
    data.Inside lhs rhs := by
  rcases reads.table lhs rhs with ⟨verdict, answered, same⟩
  rw [← same] at ordered
  cases verdict with
  | equal =>
      rw [CoreData.Inside, CoreData.equal_iff.mp answered]
      exact .refl
  | subclass => exact (CoreData.subclass_iff.mp answered).2
  | superclass => rcases ordered with ordered | ordered <;> contradiction
  | disjoint => rcases ordered with ordered | ordered <;> contradiction
  | unknown => rcases ordered with ordered | ordered <;> contradiction

end Reads

/-- A member that is neither apart from the carrier nor unknown leaves the carrier or itself, and
what is inside both is inside that. -/
theorem inside_of_meetMember {className : Text} (inCarrier : data.Inside name carrier)
    (inClass : data.Inside name className) (related : index.classOrdering carrier className ≠ .disjoint)
    (known : index.classOrdering carrier className ≠ .unknown) :
    ∃ kept, index.meetMember carrier false className = some kept ∧ data.Inside name kept := by
  rw [meetMember]
  simp only [Bool.false_eq_true, if_false]
  cases ordering : index.classOrdering carrier className with
  | equal => exact ⟨carrier, rfl, inCarrier⟩
  | subclass => exact ⟨carrier, rfl, inCarrier⟩
  | superclass => exact ⟨className, rfl, inClass⟩
  | disjoint => exact absurd ordering related
  | unknown => exact absurd ordering known

theorem meetMember_of_superclass {className : Text}
    (below : index.classOrdering carrier className = .superclass) :
    index.meetMember carrier false className = some className := by
  simp [meetMember, below]

/-! ## What the meet answers -/

/-- What the surviving members of a union leave. -/
def ofSurvivors (names : List Text) : Option ClassFact :=
  match names.eraseDups with
  | [] => some .bot
  | [one] => some (.narrowed one)
  | _ => none

theorem mem_of_eraseDups {names listed : List Text} (erased : names.eraseDups = listed) (name : Text) :
    name ∈ names ↔ name ∈ listed := by
  rw [← erased, List.mem_eraseDups]

theorem ofSurvivors_eq_bot_iff {names : List Text} : ofSurvivors names = some .bot ↔ names = [] := by
  rw [ofSurvivors, List.eq_nil_iff_forall_not_mem]
  split
  · next none => simp [mem_of_eraseDups none]
  · next one single => simp [mem_of_eraseDups single]
  · next none _ =>
    constructor
    · rintro ⟨⟩
    · intro empty
      exact absurd (List.eq_nil_iff_forall_not_mem.mpr fun name mem => empty name (List.mem_eraseDups.mp mem)) none

theorem ofSurvivors_eq_narrowed_iff {names : List Text} {one : Text} :
    ofSurvivors names = some (.narrowed one) ↔ one ∈ names ∧ ∀ other ∈ names, other = one := by
  rw [ofSurvivors]
  split
  · next none => simp [mem_of_eraseDups none]
  · next found single =>
    simp only [mem_of_eraseDups single, List.mem_singleton, Option.some.injEq, ClassFact.narrowed.injEq, forall_eq]
    exact ⟨fun same => ⟨same.symm, same⟩, And.right⟩
  · next none many =>
    constructor
    · rintro ⟨⟩
    · rintro ⟨mem, only⟩
      have noDups := (Library.Grouping.nodup_eraseDups names).ne_singleton_iff one
      rcases noDups.mp (many one) with empty | ⟨other, found, apart⟩
      · exact absurd empty none
      · exact absurd (only other (List.mem_eraseDups.mp found)) apart

/-- A guard that is not exact on one class is met as a union of one member. -/
theorem narrowNominalToClass_of_not_exact (reads : index.Reads data) (isA : guard.exact = false) :
    index.narrowNominalToClass carrier guard =
      if ∃ className ∈ guard.classes, index.classOrdering carrier className = .unknown then some .widened
      else ofSurvivors (guard.classes.filterMap (index.meetMember carrier false)) := by
  have asBool : (guard.classes.any fun className =>
      !guard.exact && index.classOrdering carrier className == .unknown) = true ↔
      ∃ className ∈ guard.classes, index.classOrdering carrier className = .unknown := by
    simp [isA]
  rw [narrowNominalToClass]
  split
  · next only single =>
    have alone : ∀ one : Text, ofSurvivors [one] = some (.narrowed one) :=
      fun one => ofSurvivors_eq_narrowed_iff.mpr (by simp)
    have nothing : ofSurvivors [] = some .bot := rfl
    rw [single]
    by_cases same : only = carrier
    · subst same
      simp [reads.equal_self, meetMember, alone]
    · cases ordering : index.classOrdering carrier only <;>
        simp [same, isA, meetMember, ordering, alone, nothing]
  · by_cases unknown : ∃ className ∈ guard.classes, index.classOrdering carrier className = .unknown
    · rw [if_pos unknown, if_pos (asBool.mpr unknown)]
    · rw [if_neg unknown, if_neg (mt asBool.mp unknown), isA]
      rfl

section Answers

variable (reads : index.Reads data) (isA : guard.exact = false)

include reads isA

/-- The meet of a class with a guard that is not exact is `Bot` if the index holds every class of
the guard for disjoint. -/
theorem narrowNominalToClass_eq_bot_iff :
    index.narrowNominalToClass carrier guard = some .bot ↔
      ∀ className ∈ guard.classes, index.classOrdering carrier className = .disjoint := by
  have leaves : ∀ className, index.classOrdering carrier className = .disjoint ↔
      index.meetMember carrier false className = none ∧ index.classOrdering carrier className ≠ .unknown := by
    intro className
    cases ordering : index.classOrdering carrier className <;> simp [meetMember, ordering]
  rw [narrowNominalToClass_of_not_exact reads isA]
  simp only [leaves, imp_and, forall_and]
  by_cases unknown : ∃ className ∈ guard.classes, index.classOrdering carrier className = .unknown
  · rw [if_pos unknown]
    rcases unknown with ⟨className, mem, ordered⟩
    constructor
    · rintro ⟨⟩
    · intro apart
      exact absurd ordered (apart.2 className mem)
  · rw [if_neg unknown, ofSurvivors_eq_bot_iff, List.filterMap_eq_nil_iff]
    simp only [not_exists, not_and] at unknown
    exact (and_iff_left unknown).symm

/-- It is a class if no class of the guard is unknown and the others leave this class. -/
theorem narrowNominalToClass_eq_narrowed_iff {kept : Text} :
    index.narrowNominalToClass carrier guard = some (.narrowed kept) ↔
      (∀ className ∈ guard.classes, index.classOrdering carrier className ≠ .unknown) ∧
      kept ∈ guard.classes.filterMap (index.meetMember carrier false) ∧
      ∀ other ∈ guard.classes.filterMap (index.meetMember carrier false), other = kept := by
  rw [narrowNominalToClass_of_not_exact reads isA]
  by_cases unknown : ∃ className ∈ guard.classes, index.classOrdering carrier className = .unknown
  · rw [if_pos unknown]
    rcases unknown with ⟨className, mem, ordered⟩
    constructor
    · rintro ⟨⟩
    · intro apart
      exact absurd ordered (apart.1 className mem)
  · rw [if_neg unknown, ofSurvivors_eq_narrowed_iff]
    simp only [not_exists, not_and] at unknown
    exact (and_iff_right unknown).symm

end Answers

/-! ## Classes below a carrier and a guard -/

/-- What is known of a local does not rule the class out. -/
def Covers (data : CoreData Def) (name : Text) (fact : Option ClassFact) : Prop :=
  fact ≠ some .bot ∧ ∀ className, fact = some (.narrowed className) → data.Inside name className

/-- The class is inside one of the classes of the guard. -/
def Passes (data : CoreData Def) (name : Text) (guard : GuardFact) : Prop :=
  ∃ className ∈ guard.classes, data.Inside name className

/-- The class is inside a class of the guard that the index does not hold for disjoint from the
carrier, or the guard does not leave one class: it has an unknown class, or two below the
carrier. -/
def Keeps (index : Index) (data : CoreData Def) (name carrier : Text) (guard : GuardFact) : Prop :=
  (∃ className ∈ guard.classes, data.Inside name className ∧
    index.classOrdering carrier className ≠ .disjoint) ∨
  (∃ className ∈ guard.classes, index.classOrdering carrier className = .unknown) ∨
  ∃ first ∈ guard.classes, ∃ second ∈ guard.classes, first ≠ second ∧
    index.classOrdering carrier first = .superclass ∧ index.classOrdering carrier second = .superclass

section Below

variable (reads : index.Reads data) (isA : guard.exact = false) (inside : data.Inside name carrier)

include reads isA inside

theorem covers_of_keeps (keeps : index.Keeps data name carrier guard) :
    Covers data name (index.narrowNominalToClass carrier guard) := by
  constructor
  · intro isBot
    have apart := (narrowNominalToClass_eq_bot_iff reads isA).mp isBot
    rcases keeps with ⟨className, mem, -, related⟩ | ⟨className, mem, unknown⟩ | ⟨first, mem, -, -, -, below, -⟩
    · exact related (apart className mem)
    · rw [apart className mem] at unknown
      contradiction
    · rw [apart first mem] at below
      contradiction
  · intro kept narrowed
    rcases (narrowNominalToClass_eq_narrowed_iff reads isA).mp narrowed with ⟨known, -, only⟩
    rcases keeps with ⟨className, mem, inClass, related⟩ | ⟨className, mem, unknown⟩ |
      ⟨first, mem, second, mem', differ, below, below'⟩
    · rcases inside_of_meetMember inside inClass related (known className mem) with ⟨survivor, met, inSurvivor⟩
      rw [← only survivor (List.mem_filterMap.mpr ⟨className, mem, met⟩)]
      exact inSurvivor
    · exact absurd unknown (known className mem)
    · have survives : ∀ className ∈ guard.classes, index.classOrdering carrier className = .superclass →
          className = kept :=
        fun className mem below =>
          only className (List.mem_filterMap.mpr ⟨className, mem, meetMember_of_superclass below⟩)
      exact absurd ((survives first mem below).trans (survives second mem' below').symm) differ

/-- If the guard loses the class, its members are apart from the carrier or one class below it. -/
theorem keeps_of_covers (covers : Covers data name (index.narrowNominalToClass carrier guard)) :
    index.Keeps data name carrier guard := by
  by_contra lost
  simp only [Keeps, not_or, not_exists, not_and, not_not] at lost
  rcases lost with ⟨apart, known, single⟩
  have members : ∀ className ∈ guard.classes, index.classOrdering carrier className = .disjoint ∨
      index.classOrdering carrier className = .superclass := by
    intro className mem
    cases ordering : index.classOrdering carrier className with
    | disjoint => exact .inl rfl
    | superclass => exact .inr rfl
    | unknown => exact absurd ordering (known className mem)
    | equal =>
        have above := inside.trans (reads.inside_of_above (.inl ordering))
        exact absurd (apart className mem above) (by simp [ordering])
    | subclass =>
        have above := inside.trans (reads.inside_of_above (.inr ordering))
        exact absurd (apart className mem above) (by simp [ordering])
  by_cases all : ∀ className ∈ guard.classes, index.classOrdering carrier className = .disjoint
  · exact covers.1 ((narrowNominalToClass_eq_bot_iff reads isA).mpr all)
  · simp only [not_forall] at all
    rcases all with ⟨one, mem, related⟩
    have below := (members one mem).resolve_left related
    have left : index.narrowNominalToClass carrier guard = some (.narrowed one) := by
      rw [narrowNominalToClass_eq_narrowed_iff reads isA]
      refine ⟨known, List.mem_filterMap.mpr ⟨one, mem, meetMember_of_superclass below⟩, ?_⟩
      intro other survives
      rcases List.mem_filterMap.mp survives with ⟨className, mem', met⟩
      rcases members className mem' with ordered | ordered
      · simp [meetMember, ordered] at met
      · rw [meetMember_of_superclass ordered, Option.some.injEq] at met
        by_contra differ
        exact single one mem className mem' (fun same => differ (met.symm.trans same.symm)) below ordered
    exact related (apart one mem (covers.2 one left))

end Below

/-- A class that a value of the local can have: it is inside the carrier, and passes every guard. -/
structure Possible (data : CoreData Def) (name carrier : Text) (guards : List GuardFact) : Prop where
  inside : data.Inside name carrier
  passes : ∀ guard ∈ guards, Passes data name guard

/-- Along a sequence of guards that are not exact, what is known of a local never rules out a
possible class, if and only if each guard keeps the class with the carrier that it meets. -/
theorem foldl_meet_iff (reads : index.Reads data) {guards : List GuardFact}
    (isA : ∀ guard ∈ guards, guard.exact = false) (possible : Possible data name carrier guards) :
    (∀ front, front <+: guards → Covers data name (front.foldl index.meet (some (.narrowed carrier)))) ↔
      ∀ front guard back, guards = front ++ guard :: back → ∀ met,
        front.foldl index.meet (some (.narrowed carrier)) = some (.narrowed met) →
          index.Keeps data name met guard := by
  have initially : Covers data name (some (.narrowed carrier)) := by
    constructor
    · rintro ⟨⟩
    · rintro _ ⟨⟩
      exact possible.inside
  have step : ∀ fact guard, Covers data name fact → guard ∈ guards →
      (Covers data name (index.meet fact guard) ↔
        ∀ met, fact = some (.narrowed met) → index.Keeps data name met guard) := by
    intro fact guard covers mem
    rcases fact with _ | met | _ | _
    · exact iff_of_true covers (by rintro _ ⟨⟩)
    · have inside := covers.2 met rfl
      simp only [meet, Option.some.injEq, ClassFact.narrowed.injEq, forall_eq']
      exact ⟨keeps_of_covers reads (isA guard mem) inside, covers_of_keeps reads (isA guard mem) inside⟩
    · exact absurd rfl covers.1
    · exact iff_of_true covers (by rintro _ ⟨⟩)
  exact foldl_front_iff initially step

/-! ## A module of a subclass -/

/-- The index of a table. -/
def ofTable (data : CoreData Def) : Index where
  classOrdering lhs rhs := ((data.classOrdering lhs rhs).map ClassOrdering.ofTable).getD .unknown
  knownClass name := (data.entry? name).isSome
  constantShadowed _ := false
  enclosing := []
  typeOf _ _ := .dynamic
  bindTarget _ _ := .dynamic
  floored _ := []

theorem reads_ofTable (data : CoreData Def) : (ofTable data).Reads data := by
  intro lhs rhs
  rcases CoreData.exists_classOrdering data lhs rhs with ⟨verdict, answered⟩
  simp [ofTable, answered]

/-- `Object`, and a subclass that includes the module `Comparable`. -/
def objectTable : CoreData Unit :=
  ⟨[("Object".toList, CoreData.mixinEntry []), ("Comparable".toList, CoreData.mixinEntry []),
    ("String".toList,
      { CoreData.mixinEntry ["Comparable".toList] with superclass := some "Object".toList })]⟩

theorem string_below_object : objectTable.Below "String".toList "Object".toList :=
  .single ⟨_, rfl, rfl⟩

theorem string_inside_comparable : objectTable.Inside "String".toList "Comparable".toList :=
  .single ⟨_, rfl, by decide⟩

def classGuard (className : Text) : GuardFact :=
  { classes := [className], exact := false, mintable := true }

/-- `Object`, then `String` or `Comparable`, then `Comparable`. -/
def stringGuards : List GuardFact :=
  [classGuard "Object".toList, ⟨["String".toList, "Comparable".toList], false, true⟩,
    classGuard "Comparable".toList]

theorem possible_string : Possible objectTable "String".toList "Object".toList stringGuards where
  inside := string_below_object.inside
  passes := by
    simp only [stringGuards, List.mem_cons, List.not_mem_nil, or_false, forall_eq_or_imp, forall_eq]
    exact ⟨⟨"Object".toList, List.mem_singleton_self _, string_below_object.inside⟩,
      ⟨"String".toList, List.mem_cons_self, .refl⟩,
      ⟨"Comparable".toList, List.mem_singleton_self _, string_inside_comparable⟩⟩

/-- The second guard leaves `String`, which the third keeps. -/
theorem foldl_meet_string : Covers objectTable "String".toList
    (stringGuards.foldl (ofTable objectTable).meet (some (.narrowed "Object".toList))) := by
  have isA : ∀ guard ∈ stringGuards, guard.exact = false := by simp [stringGuards, classGuard]
  have law := foldl_meet_iff (reads_ofTable objectTable) isA possible_string
  apply law.mpr _ _ (List.prefix_refl _)
  rintro front guard back split met before
  rcases front with _ | ⟨first, _ | ⟨second, _ | ⟨third, front⟩⟩⟩
  · cases split
    cases before
    exact .inl ⟨"Object".toList, List.mem_singleton_self _, string_below_object.inside, by decide⟩
  · cases split
    cases before
    exact .inl ⟨"String".toList, List.mem_cons_self, .refl, by decide⟩
  · cases split
    cases before
    exact .inl ⟨"Comparable".toList, List.mem_singleton_self _, string_inside_comparable, by decide⟩
  · simp [stringGuards] at split

/-- The subclass passes a guard on the module, and the meet of its superclass with it is `Bot`. -/
theorem not_covers_mixin : ¬ ∀ (data : CoreData Unit) (index : Index), index.Reads data →
    ∀ (name carrier : Text) (guard : GuardFact), guard.exact = false → data.Loaded name →
      data.Below name carrier → Passes data name guard →
        Covers data name (index.narrowNominalToClass carrier guard) := by
  intro claim
  have passes : Passes objectTable "String".toList (classGuard "Comparable".toList) :=
    ⟨"Comparable".toList, List.mem_singleton_self _, string_inside_comparable⟩
  have covers := claim objectTable (ofTable objectTable) (reads_ofTable _) "String".toList "Object".toList
    (classGuard "Comparable".toList) rfl rfl string_below_object passes
  exact covers.1 (by decide)

end Index

end Rigor.Infer.Narrowing
