import Rigor.Index.Absence
import Rigor.Rust.Colons

/-!
# The order of classes

How two classes of the table are related.  The verdict compares their two chains, and is a partial
order where no class is above itself.
-/

namespace Rigor.Index

open Rigor.Text (stripRoot)
open Relation

universe u

inductive ClassOrdering where
  | equal
  | subclass
  | superclass
  | disjoint
  | unknown
  deriving DecidableEq

namespace CoreData

variable {Def : Type u}

def classOrdering (data : CoreData Def) (lhs rhs : Text) : Option ClassOrdering :=
  let lhs := stripRoot lhs
  let rhs := stripRoot rhs
  if lhs = rhs then some .equal
  else if (data.entry? lhs).isNone || (data.entry? rhs).isNone then some .unknown
  else
    (data.ancestors lhs).bind fun (lhsAnc, lhsComplete) =>
      (data.ancestors rhs).map fun (rhsAnc, rhsComplete) =>
        if rhs ∈ lhsAnc then .subclass
        else if lhs ∈ rhsAnc then .superclass
        else if lhsComplete && rhsComplete then .disjoint
        else .unknown

/-! ## The verdicts -/

/-- The table holds the name.  A leading `::` does not count. -/
def Loaded (data : CoreData Def) (name : Text) : Prop :=
  (data.entry? (stripRoot name)).isSome = true

/-- The first class has the second one among its ancestors. -/
def Inside (data : CoreData Def) (name ancestor : Text) : Prop :=
  data.Reaches (stripRoot name) (stripRoot ancestor)

/-- Both names are loaded, and are not the same. -/
def Distinct (data : CoreData Def) (lhs rhs : Text) : Prop :=
  data.Loaded lhs ∧ data.Loaded rhs ∧ stripRoot lhs ≠ stripRoot rhs

/-- No class is above itself. -/
def Acyclic (data : CoreData Def) : Prop :=
  ∀ name, ¬ TransGen data.Edge name name

variable {data : CoreData Def} {lhs rhs : Text}

theorem Distinct.symm (distinct : data.Distinct lhs rhs) : data.Distinct rhs lhs :=
  ⟨distinct.2.1, distinct.1, distinct.2.2.symm⟩

theorem classOrdering_of_same (same : stripRoot lhs = stripRoot rhs) :
    data.classOrdering lhs rhs = some .equal := by
  rw [classOrdering]
  simp only [if_pos same]

theorem classOrdering_of_unloaded (different : stripRoot lhs ≠ stripRoot rhs)
    (unloaded : ¬ (data.Loaded lhs ∧ data.Loaded rhs)) :
    data.classOrdering lhs rhs = some .unknown := by
  rw [classOrdering]
  simp only [if_neg different]
  rw [if_pos]
  rw [Loaded, Loaded, not_and_or, Option.not_isSome_iff_eq_none, Option.not_isSome_iff_eq_none] at unloaded
  rw [Bool.or_eq_true, Option.isNone_iff_eq_none, Option.isNone_iff_eq_none]
  exact unloaded

open Classical in
/-- The verdict on two distinct loaded names. -/
theorem classOrdering_of_distinct (distinct : data.Distinct lhs rhs) :
    data.classOrdering lhs rhs = some
      (if data.Inside lhs rhs then .subclass
      else if data.Inside rhs lhs then .superclass
      else if data.ChainComplete (stripRoot lhs) ∧ data.ChainComplete (stripRoot rhs) then .disjoint
      else .unknown) := by
  rcases distinct with ⟨left, right, different⟩
  rcases ancestors_eq data (stripRoot lhs) with ⟨lhsAnc, lhsComplete, lhsWalk, lhsMem, lhsWhole⟩
  rcases ancestors_eq data (stripRoot rhs) with ⟨rhsAnc, rhsComplete, rhsWalk, rhsMem, rhsWhole⟩
  have inLhs : stripRoot rhs ∈ lhsAnc ↔ data.Inside lhs rhs := by
    rw [lhsMem]
    exact and_iff_left right
  have inRhs : stripRoot lhs ∈ rhsAnc ↔ data.Inside rhs lhs := by
    rw [rhsMem]
    exact and_iff_left left
  have present : ((data.entry? (stripRoot lhs)).isNone || (data.entry? (stripRoot rhs)).isNone) = false := by
    rw [Bool.or_eq_false_iff, Option.isNone_eq_false_iff, Option.isNone_eq_false_iff]
    exact ⟨left, right⟩
  rw [classOrdering]
  simp only [if_neg different, present, Bool.false_eq_true, if_false, lhsWalk, rhsWalk, Option.bind_some,
    Option.map_some, inLhs, inRhs, Bool.and_eq_true, lhsWhole, rhsWhole]

/-- Two names have a verdict. -/
theorem exists_classOrdering (data : CoreData Def) (lhs rhs : Text) :
    ∃ verdict, data.classOrdering lhs rhs = some verdict := by
  by_cases same : stripRoot lhs = stripRoot rhs
  · exact ⟨_, classOrdering_of_same same⟩
  · by_cases loaded : data.Loaded lhs ∧ data.Loaded rhs
    · exact ⟨_, classOrdering_of_distinct ⟨loaded.1, loaded.2, same⟩⟩
    · exact ⟨_, classOrdering_of_unloaded same loaded⟩

theorem distinct_of_classOrdering {verdict : ClassOrdering}
    (ordered : data.classOrdering lhs rhs = some verdict) (notEqual : verdict ≠ .equal)
    (known : verdict ≠ .unknown) : data.Distinct lhs rhs := by
  by_cases same : stripRoot lhs = stripRoot rhs
  · rw [classOrdering_of_same same] at ordered
    exact absurd (Option.some.inj ordered).symm notEqual
  · by_cases loaded : data.Loaded lhs ∧ data.Loaded rhs
    · exact ⟨loaded.1, loaded.2, same⟩
    · rw [classOrdering_of_unloaded same loaded] at ordered
      exact absurd (Option.some.inj ordered).symm known

theorem equal_iff : data.classOrdering lhs rhs = some .equal ↔ stripRoot lhs = stripRoot rhs := by
  constructor
  · intro ordered
    by_contra different
    by_cases loaded : data.Loaded lhs ∧ data.Loaded rhs
    · rw [classOrdering_of_distinct ⟨loaded.1, loaded.2, different⟩] at ordered
      split_ifs at ordered <;> contradiction
    · rw [classOrdering_of_unloaded different loaded] at ordered
      contradiction
  · exact classOrdering_of_same

theorem subclass_iff : data.classOrdering lhs rhs = some .subclass ↔
    data.Distinct lhs rhs ∧ data.Inside lhs rhs := by
  constructor
  · intro ordered
    have distinct := distinct_of_classOrdering ordered (by decide) (by decide)
    refine ⟨distinct, ?_⟩
    by_contra outside
    rw [classOrdering_of_distinct distinct, if_neg outside] at ordered
    split_ifs at ordered <;> contradiction
  · rintro ⟨distinct, inside⟩
    rw [classOrdering_of_distinct distinct, if_pos inside]

theorem superclass_iff : data.classOrdering lhs rhs = some .superclass ↔
    data.Distinct lhs rhs ∧ ¬ data.Inside lhs rhs ∧ data.Inside rhs lhs := by
  constructor
  · intro ordered
    have distinct := distinct_of_classOrdering ordered (by decide) (by decide)
    rw [classOrdering_of_distinct distinct] at ordered
    split_ifs at ordered with inside above
    · contradiction
    · exact ⟨distinct, inside, above⟩
    · contradiction
    · contradiction
  · rintro ⟨distinct, outside, above⟩
    rw [classOrdering_of_distinct distinct, if_neg outside, if_pos above]

theorem disjoint_iff : data.classOrdering lhs rhs = some .disjoint ↔
    data.Distinct lhs rhs ∧ ¬ data.Inside lhs rhs ∧ ¬ data.Inside rhs lhs ∧
      data.ChainComplete (stripRoot lhs) ∧ data.ChainComplete (stripRoot rhs) := by
  constructor
  · intro ordered
    have distinct := distinct_of_classOrdering ordered (by decide) (by decide)
    rw [classOrdering_of_distinct distinct] at ordered
    split_ifs at ordered with inside above complete
    · contradiction
    · contradiction
    · exact ⟨distinct, inside, above, complete⟩
    · contradiction
  · rintro ⟨distinct, outside, above, complete⟩
    rw [classOrdering_of_distinct distinct, if_neg outside, if_neg above, if_pos complete]

/-! ## An acyclic table -/

theorem Acyclic.not_inside (acyclic : data.Acyclic) (distinct : data.Distinct lhs rhs)
    (inside : data.Inside lhs rhs) : ¬ data.Inside rhs lhs := by
  intro back
  rcases reflTransGen_iff_eq_or_transGen.mp inside with same | steps
  · exact distinct.2.2 same.symm
  · exact acyclic _ (steps.trans_left back)

theorem subclass_iff_superclass (acyclic : data.Acyclic) :
    data.classOrdering lhs rhs = some .subclass ↔ data.classOrdering rhs lhs = some .superclass := by
  rw [subclass_iff, superclass_iff]
  constructor
  · rintro ⟨distinct, inside⟩
    exact ⟨distinct.symm, acyclic.not_inside distinct inside, inside⟩
  · rintro ⟨distinct, -, inside⟩
    exact ⟨distinct.symm, inside⟩

theorem subclass_trans (acyclic : data.Acyclic) {middle : Text}
    (first : data.classOrdering lhs middle = some .subclass)
    (second : data.classOrdering middle rhs = some .subclass) :
    data.classOrdering lhs rhs = some .subclass := by
  rcases subclass_iff.mp first with ⟨below, inside⟩
  rcases subclass_iff.mp second with ⟨above, inside'⟩
  have different : stripRoot lhs ≠ stripRoot rhs := by
    intro same
    apply acyclic.not_inside below inside
    rw [Inside, same]
    exact inside'
  exact subclass_iff.mpr ⟨⟨below.1, above.2.1, different⟩, ReflTransGen.trans inside inside'⟩

theorem disjoint_symm (ordered : data.classOrdering lhs rhs = some .disjoint) :
    data.classOrdering rhs lhs = some .disjoint := by
  rcases disjoint_iff.mp ordered with ⟨distinct, outside, outside', complete, complete'⟩
  exact disjoint_iff.mpr ⟨distinct.symm, outside', outside, complete', complete⟩

/-! ## Superclasses -/

def Inherits (data : CoreData Def) (name sup : Text) : Prop :=
  ∃ entry, data.entry? name = some entry ∧ entry.superclass = some sup

/-- The first class is the second one, or has it among its superclasses. -/
def Below (data : CoreData Def) (name sup : Text) : Prop :=
  ReflTransGen data.Inherits (stripRoot name) (stripRoot sup)

theorem Below.inside (below : data.Below lhs rhs) : data.Inside lhs rhs := by
  have edge : ∀ name sup, data.Inherits name sup → data.Edge name sup := by
    rintro name sup ⟨entry, found, declared⟩
    exact ⟨entry, found, by simp [edges, declared]⟩
  exact ReflTransGen.mono edge _ _ below

/-- Of two superclasses of one class, one is below the other. -/
theorem Below.total {name : Text} (first : data.Below name lhs) (second : data.Below name rhs) :
    data.Inside lhs rhs ∨ data.Inside rhs lhs := by
  have unique : Relator.RightUnique data.Inherits := by
    rintro name sup sup' ⟨entry, found, declared⟩ ⟨entry', found', declared'⟩
    cases found.symm.trans found'
    exact Option.some.inj (declared.symm.trans declared')
  rcases ReflTransGen.total_of_right_unique unique first second with below | below
  · exact .inl (Below.inside below)
  · exact .inr (Below.inside below)

/-! ## A table that grows -/

/-- Names that were not loaded may get entries, and the others keep theirs. -/
def Grows (data grown : CoreData Def) : Prop :=
  ∀ name entry, data.entry? name = some entry → grown.entry? name = some entry

namespace Grows

variable {grown : CoreData Def}

theorem edge (grows : data.Grows grown) {name ancestor : Text} (edge : data.Edge name ancestor) :
    grown.Edge name ancestor := by
  rcases edge with ⟨entry, found, isEdge⟩
  exact ⟨entry, grows name entry found, isEdge⟩

theorem reaches (grows : data.Grows grown) {name ancestor : Text} (reaches : data.Reaches name ancestor) :
    grown.Reaches name ancestor :=
  ReflTransGen.mono (fun _ _ edge => grows.edge edge) _ _ reaches

theorem loaded (grows : data.Grows grown) (loaded : data.Loaded lhs) : grown.Loaded lhs := by
  rcases Option.isSome_iff_exists.mp loaded with ⟨entry, found⟩
  rw [Loaded, grows _ entry found]
  rfl

theorem distinct (grows : data.Grows grown) (distinct : data.Distinct lhs rhs) :
    grown.Distinct lhs rhs :=
  ⟨grows.loaded distinct.1, grows.loaded distinct.2.1, distinct.2.2⟩

/-- A complete chain stays as it is. -/
theorem reaches_iff (grows : data.Grows grown) {name ancestor : Text}
    (complete : data.ChainComplete name) : grown.Reaches name ancestor ↔ data.Reaches name ancestor := by
  constructor
  · intro reaches
    induction reaches with
    | refl => exact .refl
    | tail _ edge ih =>
        rcases complete _ ih with ⟨entry, found, -⟩
        rcases edge with ⟨entry', found', isEdge⟩
        cases (grows _ entry found).symm.trans found'
        exact ih.tail ⟨entry, found, isEdge⟩
  · exact grows.reaches

theorem chainComplete (grows : data.Grows grown) {name : Text} (complete : data.ChainComplete name) :
    grown.ChainComplete name := by
  intro ancestor reaches
  rcases complete ancestor ((grows.reaches_iff complete).mp reaches) with ⟨entry, found, buildable⟩
  exact ⟨entry, grows ancestor entry found, buildable⟩

/-- A decided verdict stays. -/
theorem classOrdering_eq (grows : data.Grows grown) (acyclic : grown.Acyclic) {verdict : ClassOrdering}
    (decided : verdict = .subclass ∨ verdict = .superclass ∨ verdict = .disjoint)
    (ordered : data.classOrdering lhs rhs = some verdict) :
    grown.classOrdering lhs rhs = some verdict := by
  rcases decided with rfl | rfl | rfl
  · rcases subclass_iff.mp ordered with ⟨distinct, inside⟩
    exact subclass_iff.mpr ⟨grows.distinct distinct, grows.reaches inside⟩
  · rcases superclass_iff.mp ordered with ⟨distinct, -, above⟩
    have grownDistinct := grows.distinct distinct
    have grownAbove := grows.reaches above
    exact superclass_iff.mpr ⟨grownDistinct, acyclic.not_inside grownDistinct.symm grownAbove, grownAbove⟩
  · rcases disjoint_iff.mp ordered with ⟨distinct, outside, outside', complete, complete'⟩
    rw [Inside, ← grows.reaches_iff complete] at outside
    rw [Inside, ← grows.reaches_iff complete'] at outside'
    exact disjoint_iff.mpr ⟨grows.distinct distinct, outside, outside', grows.chainComplete complete,
      grows.chainComplete complete'⟩

end Grows

/-! ## The laws -/

/-- The laws of the order that an acyclic table keeps. -/
structure OrderingLaws (data : CoreData Def) : Prop where
  answers : ∀ a b, ∃ verdict, data.classOrdering a b = some verdict
  swap : ∀ a b, data.classOrdering a b = some .subclass ↔ data.classOrdering b a = some .superclass
  trans : ∀ a b c, data.classOrdering a b = some .subclass → data.classOrdering b c = some .subclass →
    data.classOrdering a c = some .subclass
  equal : ∀ a b, data.classOrdering a b = some .equal ↔ stripRoot a = stripRoot b
  symm : ∀ a b, data.classOrdering a b = some .disjoint → data.classOrdering b a = some .disjoint
  apart : ∀ a b, data.classOrdering a b = some .disjoint → ¬ data.Inside a b ∧ ¬ data.Inside b a
  stable : ∀ grown, data.Grows grown → grown.Acyclic → ∀ a b verdict,
    verdict = .subclass ∨ verdict = .superclass ∨ verdict = .disjoint →
    data.classOrdering a b = some verdict → grown.classOrdering a b = some verdict

/-- Disjoint classes have no class in common. -/
def DisjointExcludes (data : CoreData Def) (contained : Text → Text → Prop) : Prop :=
  ∀ a b, data.classOrdering a b = some .disjoint → ∀ c, ¬ (contained c a ∧ contained c b)

/-- Disjoint is answered only of names that are registered and whose chains are complete. -/
def DisjointKnown (data : CoreData Def) : Prop :=
  ∀ a b, data.classOrdering a b = some .disjoint →
    data.Loaded a ∧ data.Loaded b ∧ data.ChainComplete (stripRoot a) ∧ data.ChainComplete (stripRoot b)

/-- One class is another, or below it. -/
def Contained (data : CoreData Def) (c a : Text) : Prop :=
  data.classOrdering c a = some .equal ∨ data.classOrdering c a = some .subclass

/-- An acyclic table orders its classes; Disjoint needs both chains to be known, and no class has two disjoint
superclasses. -/
theorem classOrdering_laws (data : CoreData Def) (acyclic : data.Acyclic) :
    data.OrderingLaws ∧ data.DisjointKnown ∧ data.DisjointExcludes data.Below := by
  refine ⟨?_, ?_, ?_⟩
  · constructor
    · exact exists_classOrdering data
    · exact fun a b => subclass_iff_superclass acyclic
    · exact fun a b c => subclass_trans acyclic
    · exact fun a b => equal_iff
    · exact fun a b => disjoint_symm
    · intro a b ordered
      rcases disjoint_iff.mp ordered with ⟨-, outside, outside', -⟩
      exact ⟨outside, outside'⟩
    · exact fun grown grows acyclic' a b verdict => grows.classOrdering_eq acyclic'
  · intro a b ordered
    rcases disjoint_iff.mp ordered with ⟨distinct, -, -, complete, complete'⟩
    exact ⟨distinct.1, distinct.2.1, complete, complete'⟩
  · rintro a b ordered c ⟨first, second⟩
    rcases disjoint_iff.mp ordered with ⟨-, outside, outside', -⟩
    rcases first.total second with inside | inside
    · exact outside inside
    · exact outside' inside

def mixinEntry (includes : List Text) : ClassEntry Unit where
  methods := []
  attrMethods := []
  aliases := []
  superclass := none
  includes := includes
  prepends := []
  instanceUnbuildable := false

/-- A class that includes two modules. -/
def apartModules : CoreData Unit :=
  ⟨[(['C'], mixinEntry [['M'], ['N']]), (['M'], mixinEntry []), (['N'], mixinEntry [])]⟩

theorem acyclic_apartModules : apartModules.Acyclic := by
  have edges : ∀ x y, apartModules.Edge x y → x = ['C'] ∧ y ≠ ['C'] := by
    rintro x y ⟨entry, found, isEdge⟩
    have member := Library.Grouping.mem_of_lookup found
    simp only [apartModules, List.mem_cons, Prod.mk.injEq, List.not_mem_nil, or_false] at member
    rcases member with ⟨rfl, rfl⟩ | ⟨rfl, rfl⟩ | ⟨rfl, rfl⟩
    · simp only [mixinEntry, CoreData.edges, Option.toList_none, List.nil_append, List.append_nil,
        List.mem_cons, List.not_mem_nil, or_false] at isEdge
      rcases isEdge with rfl | rfl
      · exact ⟨rfl, by decide⟩
      · exact ⟨rfl, by decide⟩
    · exact absurd isEdge List.not_mem_nil
    · exact absurd isEdge List.not_mem_nil
  intro name loop
  rcases TransGen.head'_iff.mp loop with ⟨y, first, -⟩
  rcases TransGen.tail'_iff.mp loop with ⟨z, -, last⟩
  exact (edges z name last).2 (edges name y first).1

/-- The laws hold of the class and its modules. -/
theorem classOrdering_laws_apartModules :
    apartModules.OrderingLaws ∧ apartModules.DisjointKnown ∧
      apartModules.DisjointExcludes apartModules.Below :=
  classOrdering_laws apartModules acyclic_apartModules

/-- The modules are disjoint, and the class is inside both. -/
theorem not_classOrdering_laws : ¬ ∀ data : CoreData Unit, data.Acyclic →
    data.OrderingLaws ∧ data.DisjointExcludes data.Contained := by
  intro claim
  have disjoint : apartModules.classOrdering ['M'] ['N'] = some .disjoint := by decide
  have first : apartModules.classOrdering ['C'] ['M'] = some .subclass := by decide
  have second : apartModules.classOrdering ['C'] ['N'] = some .subclass := by decide
  exact (claim apartModules acyclic_apartModules).2 _ _ disjoint ['C'] ⟨.inr first, .inr second⟩

end CoreData

end Rigor.Index
