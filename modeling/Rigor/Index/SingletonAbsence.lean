import Rigor.Index.Absence

/-!
# Absence of class methods

A class object responds to the class methods of its superclass chain, to the instance
methods of the modules extended along it, and to the instance methods of `Class` and
of the classes that `Class` inherits from.  The table walks the three parts one by
one, each with its own notion of completeness.
-/

namespace Rigor.Index

universe u

/-- An entry with its class-level half. -/
structure SingletonEntry (Def : Type u) extends ClassEntry Def where
  singletonMethods : List (Text × Def)
  singletonAttrMethods : List Text
  singletonAliases : List (Text × Text)
  «extends» : List Text
  singletonUnbuildable : Bool

structure SingletonData (Def : Type u) where
  classes : List (Text × SingletonEntry Def)

/-- The five classes that a class object is an instance of. -/
def bases : List Text :=
  ["Class".toList, "Module".toList, "Object".toList, "Kernel".toList, "BasicObject".toList]

namespace SingletonData

variable {Def : Type u}

def entry? (data : SingletonData Def) (name : Text) : Option (SingletonEntry Def) :=
  data.classes.lookup name

/-- The instance half of the table. -/
def instances (data : SingletonData Def) : CoreData Def :=
  ⟨data.classes.map fun loaded => (loaded.1, loaded.2.toClassEntry)⟩

/-- Loaded with an instance surface, for the modules of an `extend`. -/
def extendable (data : SingletonData Def) (module : Text) : Bool :=
  (data.entry? module).any fun entry => !entry.instanceUnbuildable

/-- The chain of superclasses, and whether the class-level surface is known on it. -/
def singletonChain (data : SingletonData Def) : Nat → Text → List Text × Bool → Option (List Text × Bool)
  | 0, _, _ => none
  | fuel + 1, name, (chain, complete) =>
      match data.entry? name with
      | none => some (chain, false)
      | some entry =>
          if name ∈ chain then some (chain, complete)
          else
            let walked := (chain ++ [name],
              complete && !entry.singletonUnbuildable && entry.extends.all data.extendable)
            match entry.superclass with
            | none => some walked
            | some sup => data.singletonChain fuel sup walked

/-- Whether the instance methods of the bases have the method, and whether the bases are
loaded. -/
def singletonBasesLookup (data : SingletonData Def) (method : Text) : Bool × Bool :=
  (bases.any fun base => (data.entry? base).isSome &&
      (data.instances.ancestors base).any fun (chain, _) =>
        (data.instances.lookupOnChain chain method).isSome,
    bases.all fun base => (data.entry? base).isSome)

/-- A method or an attribute of the class objects on the chain. -/
def ownSingleton (data : SingletonData Def) (chain : List Text) (method : Text) : Bool :=
  chain.any fun anc => (data.entry? anc).any fun entry =>
    (entry.singletonMethods.lookup method).isSome || entry.singletonAttrMethods.contains method

/-- An instance method or attribute of a module extended along the chain. -/
def extendedMethod (data : SingletonData Def) (chain : List Text) (method : Text) : Bool :=
  chain.any fun anc => (data.entry? anc).any fun entry => entry.extends.any fun module =>
    (data.entry? module).isSome && (data.instances.ancestors module).any fun (moduleChain, _) =>
      (data.instances.lookupOnChain moduleChain method).isSome ||
        data.instances.attrOnChain moduleChain method

/-- The source counts the depth up to 16, the model the steps that remain. -/
def singletonOnChain (data : SingletonData Def) (chain : List Text) : Nat → Text → Bool
  | remaining, method =>
      if data.ownSingleton chain method then true
      else if data.extendedMethod chain method then true
      else
        match remaining with
        | 0 => false
        | remaining + 1 =>
            chain.any fun anc => (data.entry? anc).any fun entry =>
              (entry.singletonAliases.lookup method).any fun old =>
                data.singletonOnChain chain remaining old || (data.singletonBasesLookup old).1

def singletonLookup (data : SingletonData Def) (className method : Text) : Option (Bool × Bool) :=
  (data.singletonChain (data.classes.length + 1) className ([], true)).map fun (chain, complete) =>
    (data.singletonOnChain chain 16 method, complete)

def classHasSingletonMethod (data : SingletonData Def) (className method : Text) : Option Bool :=
  match data.entry? className with
  | none => some true
  | some _ =>
      (data.singletonLookup className method).map fun (found, complete) =>
        if found then true
        else
          let (basesFound, basesLoaded) := data.singletonBasesLookup method
          if basesFound then true else !(complete && basesLoaded)

/-! ## The surface of a class object -/

def SuperEdge (data : SingletonData Def) (name sup : Text) : Prop :=
  ∃ entry, data.entry? name = some entry ∧ entry.superclass = some sup

def Inherits (data : SingletonData Def) : Text → Text → Prop :=
  Relation.ReflTransGen data.SuperEdge

/-- Some superclass has an entry with the property. -/
def OnSupers (data : SingletonData Def) (className : Text) (holds : SingletonEntry Def → Prop) :
    Prop :=
  ∃ name entry, data.Inherits className name ∧ data.entry? name = some entry ∧ holds entry

/-- Every superclass is loaded with a class-level surface, and the ancestors of every
module extended along them and of the bases are loaded with an instance surface. -/
structure SurfaceComplete (data : SingletonData Def) (className : Text) : Prop where
  supers (name : Text) : data.Inherits className name →
    ∃ entry, data.entry? name = some entry ∧ entry.singletonUnbuildable = false ∧
      ∀ module ∈ entry.extends, data.instances.ChainComplete module
  bases (base : Text) : base ∈ Index.bases → data.instances.ChainComplete base

def AliasStep (data : SingletonData Def) (className new old : Text) : Prop :=
  data.OnSupers className fun entry => entry.singletonAliases.lookup new = some old

def DeclaresSingleton (data : SingletonData Def) (className method : Text) : Prop :=
  data.OnSupers className fun entry =>
    (∃ found, entry.singletonMethods.lookup method = some found) ∨
      method ∈ entry.singletonAttrMethods

/-- What a class object responds to. -/
inductive Provides (data : SingletonData Def) (className : Text) : Text → Prop where
  | own {name : Text} (declared : data.DeclaresSingleton className name) :
      Provides data className name
  | extended {name : Text} (module : Text)
      (onSupers : data.OnSupers className fun entry => module ∈ entry.extends)
      (provided : data.instances.Provides module name) : Provides data className name
  | base {name : Text} (base : Text) (isBase : base ∈ bases)
      (provided : data.instances.Provides base name) : Provides data className name
  | aliased {new old : Text} (step : data.AliasStep className new old)
      (provided : Provides data className old) : Provides data className new

/-- The answer `false` means that the surface is known and lacks the method. -/
def WitnessesAbsence (data : SingletonData Def) (className method : Text) : Prop :=
  ∃ found, data.classHasSingletonMethod className method = some found ∧
    (found = false → data.SurfaceComplete className ∧ ¬ data.Provides className method)

/-! ## What the walks notice -/

/-- A superclass without a class-level surface, an extended module without an instance
surface, or a base that is not loaded. -/
def Truncated (data : SingletonData Def) (className : Text) : Prop :=
  (∃ name, data.Inherits className name ∧ ∀ entry, data.entry? name = some entry →
    entry.singletonUnbuildable = true ∨ ∃ module ∈ entry.extends, ¬ data.instances.Buildable module) ∨
  ∃ base ∈ bases, data.entry? base = none

/-- An instance method of a base, through 16 aliases at most. -/
def BaseMethod (data : SingletonData Def) (method : Text) : Prop :=
  ∃ base ∈ bases, (data.entry? base).isSome = true ∧ data.instances.AliasPath base 16 method

/-- An instance method, through 16 aliases at most, or an attribute of an extended module. -/
def ExtendedMethod (data : SingletonData Def) (className method : Text) : Prop :=
  data.OnSupers className fun entry => ∃ module ∈ entry.extends,
    (data.entry? module).isSome = true ∧
      (data.instances.AliasPath module 16 method ∨ data.instances.DeclaresAttr module method)

/-- At most so many class-level alias steps lead to something declared. -/
inductive SingletonPath (data : SingletonData Def) (className : Text) : Nat → Text → Prop where
  | own {steps : Nat} {name : Text} (declared : data.DeclaresSingleton className name) :
      SingletonPath data className steps name
  | extended {steps : Nat} {name : Text} (declared : data.ExtendedMethod className name) :
      SingletonPath data className steps name
  | aliased {steps : Nat} {new old : Text} (step : data.AliasStep className new old)
      (path : SingletonPath data className steps old) :
      SingletonPath data className (steps + 1) new
  | aliasedBase {steps : Nat} {new old : Text} (step : data.AliasStep className new old)
      (declared : data.BaseMethod old) : SingletonPath data className (steps + 1) new

/-! ## The walk over the superclasses -/

theorem lookup_instances (data : SingletonData Def) (name : Text) :
    data.instances.entry? name = (data.entry? name).map SingletonEntry.toClassEntry := by
  exact Library.Grouping.lookup_mapValues SingletonEntry.toClassEntry data.classes name

theorem extendable_iff (data : SingletonData Def) (module : Text) :
    data.extendable module = true ↔ data.instances.Buildable module := by
  rw [extendable, CoreData.Buildable, lookup_instances]
  cases data.entry? module with
  | none => simp
  | some entry => simp

/-- The superclasses as a table of their own: an entry is buildable if the class-level
surface of the class is known. -/
def supers (data : SingletonData Def) : CoreData Def :=
  ⟨data.classes.map fun loaded => (loaded.1, superEntry loaded.2)⟩
where
  superEntry (entry : SingletonEntry Def) : ClassEntry Def :=
    { methods := []
      attrMethods := []
      aliases := []
      superclass := entry.superclass
      includes := []
      prepends := []
      instanceUnbuildable := entry.singletonUnbuildable || !entry.extends.all data.extendable }

theorem lookup_supers (data : SingletonData Def) (name : Text) :
    data.supers.entry? name = (data.entry? name).map (supers.superEntry data) :=
  Library.Grouping.lookup_mapValues (supers.superEntry data) data.classes name

theorem supers_isSome (data : SingletonData Def) (name : Text) :
    (data.supers.entry? name).isSome = (data.entry? name).isSome := by
  rw [lookup_supers, Option.isSome_map]

theorem supers_edge_iff (data : SingletonData Def) (name sup : Text) :
    data.supers.Edge name sup ↔ data.SuperEdge name sup := by
  rw [CoreData.Edge, SuperEdge, lookup_supers]
  cases data.entry? name with
  | none => simp
  | some entry => simp [supers.superEntry, CoreData.edges]

theorem supers_reaches_iff (data : SingletonData Def) (name sup : Text) :
    data.supers.Reaches name sup ↔ data.Inherits name sup := by
  have same : data.supers.Edge = data.SuperEdge := by
    funext name sup
    exact propext (data.supers_edge_iff name sup)
  rw [CoreData.Reaches, Inherits, same]

/-- A superclass whose class-level surface is known. -/
def KnownSuper (data : SingletonData Def) (name : Text) : Prop :=
  ∃ entry, data.entry? name = some entry ∧ entry.singletonUnbuildable = false ∧
    ∀ module ∈ entry.extends, data.instances.Buildable module

theorem supers_buildable_iff (data : SingletonData Def) (name : Text) :
    data.supers.Buildable name ↔ data.KnownSuper name := by
  rw [CoreData.Buildable, KnownSuper, lookup_supers]
  cases data.entry? name with
  | none => simp
  | some entry => simp [supers.superEntry, extendable_iff]

/-- The loop over the superclasses is the walk over their table. -/
theorem singletonChain_eq_collect (data : SingletonData Def) (fuel : Nat) (name : Text)
    (walk : Walk) (same : ∀ other, other ∈ walk.seen ↔ other ∈ walk.order) :
    data.singletonChain fuel name (walk.order, walk.complete) =
      (data.supers.collect fuel name walk).map fun after => (after.order, after.complete) := by
  induction fuel generalizing name walk with
  | zero => rfl
  | succ fuel ih =>
      rw [singletonChain, CoreData.collect, lookup_supers]
      cases data.entry? name with
      | none => rfl
      | some entry =>
          dsimp only [Option.map_some, supers.superEntry]
          by_cases old : name ∈ walk.order
          · rw [if_pos old, if_pos ((same name).mpr old)]
            rfl
          · rw [if_neg old, if_neg (fun seen => old ((same name).mp seen))]
            have step : ∀ unbuildable other,
                other ∈ ((walk.mark name unbuildable).push name).seen ↔
                  other ∈ ((walk.mark name unbuildable).push name).order := by
              intro unbuildable other
              simp [Walk.mark, Walk.push, same, or_comm]
            cases entry.superclass with
            | none => simp [Walk.mark, Walk.push, Bool.and_assoc]
            | some sup =>
                have rest := ih sup _ (step (entry.singletonUnbuildable ||
                  !entry.extends.all data.extendable))
                simpa [Walk.mark, Walk.push, Bool.and_assoc] using rest

/-- The chain holds the loaded superclasses, and is complete if all of them are known. -/
theorem singletonChain_eq (data : SingletonData Def) (className : Text) :
    ∃ chain complete,
      data.singletonChain (data.classes.length + 1) className ([], true) = some (chain, complete) ∧
      (∀ name, name ∈ chain ↔ data.Inherits className name ∧ (data.entry? name).isSome = true) ∧
      (complete = true ↔ ∀ name, data.Inherits className name → data.KnownSuper name) := by
  obtain ⟨chain, complete, walked, whole, isComplete⟩ := data.supers.ancestors_eq className
  refine ⟨chain, complete, ?_, fun name => ?_, ?_⟩
  · have same := singletonChain_eq_collect data (data.classes.length + 1) className Walk.start
      (fun _ => Iff.rfl)
    rw [CoreData.ancestors] at walked
    have length : data.supers.classes.length = data.classes.length := List.length_map _
    rw [length] at walked
    exact same.trans walked
  · rw [whole, supers_reaches_iff, supers_isSome]
  · rw [isComplete, CoreData.ChainComplete]
    simp only [supers_reaches_iff, supers_buildable_iff]

/-! ## What the lookups find -/

/-- The instance methods of a loaded class, through 16 aliases at most. -/
theorem instanceMethod_iff (data : SingletonData Def) (name method : Text) :
    ((data.instances.ancestors name).any fun walked =>
        (data.instances.lookupOnChain walked.1 method).isSome) = true ↔
      data.instances.AliasPath name 16 method := by
  obtain ⟨chain, complete, walked, whole, -⟩ := data.instances.ancestors_eq name
  rw [walked]
  exact CoreData.lookupOnChainDepth_isSome whole 16 method

theorem instanceMember_iff (data : SingletonData Def) (name method : Text) :
    ((data.instances.ancestors name).any fun walked =>
        (data.instances.lookupOnChain walked.1 method).isSome ||
          data.instances.attrOnChain walked.1 method) = true ↔
      data.instances.AliasPath name 16 method ∨ data.instances.DeclaresAttr name method := by
  obtain ⟨chain, complete, walked, whole, -⟩ := data.instances.ancestors_eq name
  rw [walked, Option.any_some, Bool.or_eq_true, CoreData.attrOnChain_iff whole]
  exact or_congr_left (CoreData.lookupOnChainDepth_isSome whole 16 method)

theorem basesFound_iff (data : SingletonData Def) (method : Text) :
    (data.singletonBasesLookup method).1 = true ↔ data.BaseMethod method := by
  simp only [singletonBasesLookup, List.any_eq_true, Bool.and_eq_true, instanceMethod_iff,
    BaseMethod]

theorem basesLoaded_iff (data : SingletonData Def) (method : Text) :
    (data.singletonBasesLookup method).2 = true ↔ ∀ base ∈ bases, (data.entry? base).isSome = true := by
  simp only [singletonBasesLookup, List.all_eq_true]

section Chain

variable {data : SingletonData Def} {className : Text} {chain : List Text}
  (whole : ∀ name, name ∈ chain ↔ data.Inherits className name ∧ (data.entry? name).isSome = true)

include whole

/-- A test of the entries on the chain holds if some superclass passes it. -/
theorem any_chain (test : SingletonEntry Def → Bool) :
    (chain.any fun anc => (data.entry? anc).any test) = true ↔
      data.OnSupers className fun entry => test entry = true := by
  rw [List.any_eq_true]
  constructor
  · rintro ⟨name, mem, passed⟩
    obtain ⟨entry, loaded, here⟩ := (Option.any_eq_true _ _).mp passed
    exact ⟨name, entry, ((whole name).mp mem).1, loaded, here⟩
  · rintro ⟨name, entry, inherits, loaded, here⟩
    refine ⟨name, (whole name).mpr ⟨inherits, by simp [loaded]⟩, ?_⟩
    rw [loaded]
    exact here

theorem ownSingleton_iff (method : Text) :
    data.ownSingleton chain method = true ↔ data.DeclaresSingleton className method := by
  rw [ownSingleton, any_chain whole, DeclaresSingleton]
  simp only [Bool.or_eq_true, Option.isSome_iff_exists, List.contains_iff_mem]

theorem extendedMethod_iff (method : Text) :
    data.extendedMethod chain method = true ↔ data.ExtendedMethod className method := by
  rw [extendedMethod, any_chain whole, ExtendedMethod]
  simp only [List.any_eq_true, Bool.and_eq_true, instanceMember_iff]

theorem singletonOnChain_iff (remaining : Nat) (method : Text) :
    data.singletonOnChain chain remaining method = true ↔
      data.SingletonPath className remaining method := by
  induction remaining generalizing method with
  | zero =>
      rw [singletonOnChain]
      split
      · rename_i own
        exact iff_of_true rfl (.own ((ownSingleton_iff whole method).mp own))
      · rename_i notOwn
        split
        · rename_i extended
          exact iff_of_true rfl (.extended ((extendedMethod_iff whole method).mp extended))
        · rename_i notExtended
          refine iff_of_false Bool.false_ne_true ?_
          rintro (declared | declared)
          · exact notOwn ((ownSingleton_iff whole method).mpr declared)
          · exact notExtended ((extendedMethod_iff whole method).mpr declared)
  | succ remaining ih =>
      rw [singletonOnChain]
      split
      · rename_i own
        exact iff_of_true rfl (.own ((ownSingleton_iff whole method).mp own))
      · rename_i notOwn
        split
        · rename_i extended
          exact iff_of_true rfl (.extended ((extendedMethod_iff whole method).mp extended))
        · rename_i notExtended
          rw [any_chain whole]
          simp only [Option.any_eq_true, Bool.or_eq_true, ih, basesFound_iff]
          constructor
          · rintro ⟨name, entry, inherits, loaded, old, aliased, path | declared⟩
            · exact .aliased ⟨name, entry, inherits, loaded, aliased⟩ path
            · exact .aliasedBase ⟨name, entry, inherits, loaded, aliased⟩ declared
          · rintro (declared | declared | ⟨step, path⟩ | ⟨step, declared⟩)
            · exact absurd ((ownSingleton_iff whole method).mpr declared) notOwn
            · exact absurd ((extendedMethod_iff whole method).mpr declared) notExtended
            · obtain ⟨name, entry, inherits, loaded, aliased⟩ := step
              exact ⟨name, entry, inherits, loaded, _, aliased, .inl path⟩
            · obtain ⟨name, entry, inherits, loaded, aliased⟩ := step
              exact ⟨name, entry, inherits, loaded, _, aliased, .inr declared⟩

end Chain

theorem not_truncated_iff (data : SingletonData Def) (className : Text) :
    ¬ data.Truncated className ↔
      (∀ name, data.Inherits className name → data.KnownSuper name) ∧
        ∀ base ∈ bases, (data.entry? base).isSome = true := by
  rw [Truncated, not_or]
  constructor
  · rintro ⟨supers, loaded⟩
    refine ⟨fun name inherits => ?_, fun base isBase => ?_⟩
    · by_contra unknown
      refine supers ⟨name, inherits, fun entry found => ?_⟩
      by_contra known
      rw [not_or] at known
      refine unknown ⟨entry, found, Bool.eq_false_iff.mpr known.1, fun module isExtended => ?_⟩
      by_contra unbuildable
      exact known.2 ⟨module, isExtended, unbuildable⟩
    · by_contra missing
      rw [Bool.not_eq_true, Option.isSome_eq_false_iff, Option.isNone_iff_eq_none] at missing
      exact loaded ⟨base, isBase, missing⟩
  · rintro ⟨supers, loaded⟩
    refine ⟨?_, ?_⟩
    · rintro ⟨name, inherits, unknown⟩
      obtain ⟨entry, found, buildable, modules⟩ := supers name inherits
      rcases unknown entry found with unbuildable | ⟨module, isExtended, unbuildable⟩
      · simp [buildable] at unbuildable
      · exact unbuildable (modules module isExtended)
    · rintro ⟨base, isBase, missing⟩
      have present := loaded base isBase
      simp [missing] at present

/-- The table answers, and answers `true` exactly for a declaration it notices or a
truncation it notices. -/
theorem classHasSingletonMethod_eq (data : SingletonData Def) {className : Text}
    (loaded : (data.entry? className).isSome = true) (method : Text) :
    ∃ found, data.classHasSingletonMethod className method = some found ∧
      (found = true ↔ data.SingletonPath className 16 method ∨ data.BaseMethod method ∨
        data.Truncated className) := by
  obtain ⟨entry, present⟩ := Option.isSome_iff_exists.mp loaded
  obtain ⟨chain, complete, walked, whole, isComplete⟩ := singletonChain_eq data className
  rw [classHasSingletonMethod, present, singletonLookup, walked]
  refine ⟨_, rfl, ?_⟩
  have truncated := not_truncated_iff data className
  rw [← isComplete, ← basesLoaded_iff data method] at truncated
  rw [← singletonOnChain_iff whole, ← basesFound_iff]
  dsimp only
  split
  · rename_i found
    exact iff_of_true rfl (.inl found)
  · rename_i notFound
    split
    · rename_i found
      exact iff_of_true rfl (.inr (.inl found))
    · rename_i notBase
      rw [Bool.not_eq_true', Bool.eq_false_iff, ne_eq, Bool.and_eq_true, ← truncated, not_not]
      simp [notFound, notBase]

/-- The answer is right exactly where the walks notice each gap of the surface and each
provided method. -/
theorem witnessesSingletonAbsence_iff (data : SingletonData Def) (className method : Text)
    (loaded : (data.entry? className).isSome = true) :
    data.WitnessesAbsence className method ↔
      (¬ data.SurfaceComplete className ∨ data.Provides className method →
        data.Truncated className ∨ data.SingletonPath className 16 method ∨
          data.BaseMethod method) := by
  obtain ⟨found, answered, present⟩ := classHasSingletonMethod_eq data loaded method
  constructor
  · rintro ⟨found', answered', absence⟩ missed
    obtain rfl := Option.some.inj (answered.symm.trans answered')
    by_contra unnoticed
    have absent : found = false := by
      rw [Bool.eq_false_iff, ne_eq, present]
      tauto
    obtain ⟨complete, missing⟩ := absence absent
    rcases missed with incomplete | provided
    · exact incomplete complete
    · exact missing provided
  · intro condition
    refine ⟨found, answered, fun absent => ?_⟩
    have unnoticed := present.not.mp (Bool.eq_false_iff.mp absent)
    by_contra wrong
    apply unnoticed
    have missed : ¬ data.SurfaceComplete className ∨ data.Provides className method := by
      by_contra right
      rw [not_or, not_not] at right
      exact wrong right
    have noticed := condition missed
    tauto

/-- An entry with attributes and class methods. -/
def plainEntry (attrs singletons : List Text) (superclass : Option Text) (includes : List Text) :
    SingletonEntry Unit where
  methods := []
  attrMethods := attrs
  aliases := []
  superclass := superclass
  includes := includes
  prepends := []
  instanceUnbuildable := false
  singletonMethods := singletons.map fun name => (name, ())
  singletonAttrMethods := []
  singletonAliases := []
  «extends» := []
  singletonUnbuildable := false

/-- A class with the class method `bar`, and `Object` with the attribute `foo`. -/
def attributedObject : SingletonData Unit :=
  ⟨[("C".toList, plainEntry [] ["bar".toList] (some "Object".toList) []),
    ("Class".toList, plainEntry [] [] (some "Module".toList) []),
    ("Module".toList, plainEntry [] [] (some "Object".toList) []),
    ("Object".toList, plainEntry ["foo".toList] [] (some "BasicObject".toList) ["Kernel".toList]),
    ("Kernel".toList, plainEntry [] [] none []),
    ("BasicObject".toList, plainEntry [] [] none [])]⟩

/-- The attribute of `Object` is reported absent on a class object. -/
theorem not_witnessesAbsence_attribute :
    ¬ attributedObject.WitnessesAbsence "C".toList "foo".toList := by
  rintro ⟨found, answered, absence⟩
  have absent : attributedObject.classHasSingletonMethod "C".toList "foo".toList = some false := by
    decide +kernel
  obtain rfl := Option.some.inj (absent.symm.trans answered)
  apply (absence rfl).2
  have isBase : "Object".toList ∈ bases := by decide
  have loaded : attributedObject.instances.entry? "Object".toList =
      some (plainEntry ["foo".toList] [] (some "BasicObject".toList) ["Kernel".toList]).toClassEntry := by
    rfl
  apply Provides.base _ isBase
  apply CoreData.Provides.attr
  exact ⟨"Object".toList, _, .refl, loaded, List.mem_singleton_self _⟩

/-- The condition holds of the class method. -/
theorem witnessesAbsence_classMethod :
    attributedObject.WitnessesAbsence "C".toList "bar".toList := by
  apply (witnessesSingletonAbsence_iff attributedObject "C".toList "bar".toList (by decide)).mpr
  intro _
  have loaded : attributedObject.entry? "C".toList =
      some (plainEntry [] ["bar".toList] (some "Object".toList) []) := by
    rfl
  exact .inr (.inl (.own ⟨"C".toList, _, .refl, loaded, .inl ⟨(), rfl⟩⟩))

end SingletonData

end Rigor.Index
