import Rigor.Index.ArgumentAcceptance
import Rigor.Index.WrittenNames
import Mathlib.Data.Char
import Mathlib.Data.List.Lex
import Mathlib.Data.List.Sort

/-!
# Stubs for missing types

A type that the project's declarations refer to and that nothing declares is stubbed, together with
the namespaces around it.  One round closes the references.  A namespace that is declared, but not
as a class or a module, stays what it is, and then the class keys below it have a namespace that is
no class key.
-/

namespace Rigor.Index

open Rigor.Text
open Rigor.Library.Grouping

universe u

/-- What the stub pass reads of a qualified entry. -/
structure StubEntry (Rest : Type u) where
  isModule : Bool
  memberCtxs : List (List Text)
  referencedTypeNames : List Text
  rest : Rest

structure StubBuilder (Rest : Type u) where
  qualified : List (Text × StubEntry Rest)
  knownTypeNames : List Text
  synthesizedTypeNames : List Text
  interfaceMethodNames : List (Text × List Text)
  typeAliasDefs : List (Text × RetainedParamType)

/-- `BTreeSet`, from its elements. -/
def sortedSet (names : List Text) : List Text :=
  names.eraseDups.insertionSort (· ≤ ·)

namespace StubBuilder

variable {Rest : Type u} [Inhabited Rest] (builder : StubBuilder Rest)

def keys : List Text :=
  builder.qualified.map Prod.fst

def entryOf (key : Text) : Option (StubEntry Rest) :=
  builder.qualified.lookup key

/-- `merge_qualified` of an entry without members: an entry that exists can only become a module. -/
def mergeQualified (key : Text) (isModule : Bool) : List (Text × StubEntry Rest) :=
  upsert key ⟨isModule, [], [], default⟩
    (fun entry => { entry with isModule := entry.isModule || isModule }) builder.qualified

/-- A class or a module without members. -/
def stubClass (key : Text) (isModule : Bool) : StubBuilder Rest :=
  { builder with
    qualified := builder.mergeQualified key isModule
    knownTypeNames := builder.knownTypeNames.insert key
    synthesizedTypeNames := builder.synthesizedTypeNames.insert key }

def resolveTypeNameRbs (name : Text) (ctx : List Text) : Option Text :=
  if "::".toList.isPrefixOf name then builder.knownTypeNames.find? (· = name.drop 2)
  else (⟨builder.qualified, builder.knownTypeNames⟩ : QualifiedTable (StubEntry Rest)).resolveWhole name
    ctx.reverse

/-- The namespaces of class keys that are no class keys, the outermost first. -/
def missingNamespaces : List Text :=
  ((builder.keys.flatMap namespacePrefixes).filter fun front =>
      !builder.keys.contains front).eraseDups.insertionSort
    fun a b => (splitColons a).length ≤ (splitColons b).length

def synthesizeMissingNamespaces : StubBuilder Rest :=
  builder.missingNamespaces.foldl (fun builder front => builder.stubClass front true) builder

/-- The names an entry refers to and nothing declares, in no context of its members and not at the
root. -/
def unresolvedOf (entry : StubEntry Rest) : List Text :=
  entry.referencedTypeNames.filterMap fun name =>
    if entry.memberCtxs.any fun ctx => (builder.resolveTypeNameRbs name ctx).isSome then none
    else if builder.knownTypeNames.contains (stripRoot name) then none
    else some (stripRoot name)

def unresolvedReferences (projectQualified : List Text) : List Text :=
  sortedSet (projectQualified.flatMap fun qual =>
    match builder.entryOf qual with
    | none => []
    | some entry => builder.unresolvedOf entry)

/-- The missing names with the namespaces around them, without what is declared. -/
def stubNames (missing : List Text) : List Text :=
  (sortedSet (missing ++ missing.flatMap namespacePrefixes)).filter fun name =>
    !builder.knownTypeNames.contains name

/-- Another stub stands below the name. -/
def isNamespace (names : List Text) (name : Text) : Bool :=
  names.any fun other => other ≠ name && (name ++ "::".toList).isPrefixOf other

/-- A stub of the kind that the spelling of the leaf asks for.  Every branch adds one. -/
def synthesizeStub (isLowercase : Char → Bool) (names : List Text) (name : Text) : StubBuilder Rest :=
  if isNamespace names name then builder.stubClass name true
  else if (leafOf name).head? = some '_' then
    { builder with
      interfaceMethodNames := insertNew (leafOf name) [] builder.interfaceMethodNames
      knownTypeNames := builder.knownTypeNames.insert name }
  else if (leafOf name).head?.any isLowercase then
    { builder with
      typeAliasDefs := insertNew (leafOf name) (.other "untyped".toList) builder.typeAliasDefs
      knownTypeNames := builder.knownTypeNames.insert name }
  else builder.stubClass name false

def appendStubs (isLowercase : Char → Bool) (names : List Text) : StubBuilder Rest :=
  names.foldl (fun builder name => builder.synthesizeStub isLowercase names name) builder

/-- The rounds that are left, behind one with the given missing names. -/
def stubRounds (isLowercase : Char → Bool) (projectQualified : List Text) :
    Nat → Option (List Text) → StubBuilder Rest → StubBuilder Rest
  | 0, _, builder => builder
  | rounds + 1, previous, builder =>
      let missing := builder.unresolvedReferences projectQualified
      if missing.isEmpty || previous = some missing then builder
      else
        let names := builder.stubNames missing
        if names.isEmpty then builder
        else
          stubRounds isLowercase projectQualified rounds (some missing)
            (builder.appendStubs isLowercase names)

def synthesizeMissingReferencedTypes (isLowercase : Char → Bool) (projectQualified : List Text) :
    StubBuilder Rest :=
  stubRounds isLowercase projectQualified 5 none builder.synthesizeMissingNamespaces

/-! ## What the pass promises -/

def IsKey (key : Text) : Prop :=
  (builder.entryOf key).isSome = true

/-- Declared, and not as a class or a module: a class alias, an interface, a type alias. -/
def OtherwiseDeclared (name : Text) : Prop :=
  name ∈ builder.knownTypeNames ∧ ¬ builder.IsKey name

/-- The name is declared in a context of the entry's members or at the root. -/
def Resolves (entry : StubEntry Rest) (name : Text) : Prop :=
  (∃ ctx ∈ entry.memberCtxs, (builder.resolveTypeNameRbs name ctx).isSome = true) ∨
    stripRoot name ∈ builder.knownTypeNames

/-- Every reference of the project's entries resolves. -/
def Closed (projectQualified : List Text) : Prop :=
  ∀ qual ∈ projectQualified, ∀ entry, builder.entryOf qual = some entry →
    ∀ name ∈ entry.referencedTypeNames, builder.Resolves entry name

/-- Class keys are declared. -/
def KeysDeclared : Prop :=
  ∀ key, builder.IsKey key → key ∈ builder.knownTypeNames

def NamespacesAreKeys : Prop :=
  ∀ key, builder.IsKey key → ∀ front ∈ namespacePrefixes key, builder.IsKey front

/-- Nothing that the builder has is changed. -/
structure Keeps (after : StubBuilder Rest) : Prop where
  entries : ∀ key entry, builder.entryOf key = some entry → after.entryOf key = some entry
  interfaces : ∀ leaf methods, builder.interfaceMethodNames.lookup leaf = some methods →
    after.interfaceMethodNames.lookup leaf = some methods
  aliases : ∀ leaf body, builder.typeAliasDefs.lookup leaf = some body →
    after.typeAliasDefs.lookup leaf = some body
  declared : ∀ name ∈ builder.knownTypeNames, name ∈ after.knownTypeNames
  stubs : ∀ name ∈ builder.synthesizedTypeNames, name ∈ after.synthesizedTypeNames

/-- A namespace of a class that was declared before. -/
def NamespaceOfKey (name : Text) : Prop :=
  ∃ key, builder.IsKey key ∧ name ∈ namespacePrefixes key

/-- What holds of the builder behind the pass. -/
structure StubLaws (projectQualified : List Text) (again : StubBuilder Rest → StubBuilder Rest)
    (after : StubBuilder Rest) : Prop where
  closed : after.Closed projectQualified
  namespaces : ∀ key, after.IsKey key → ∀ front ∈ namespacePrefixes key,
    after.IsKey front ∨ builder.OtherwiseDeclared front
  keeps : builder.Keeps after
  undeclared : ∀ name ∈ after.synthesizedTypeNames, name ∉ builder.synthesizedTypeNames →
    name ∉ builder.knownTypeNames ∨ builder.OtherwiseDeclared name ∧ builder.NamespaceOfKey name
  stable : after.NamespacesAreKeys → again after = after

end StubBuilder

/-! ## One stub after the other -/

theorem mem_sortedSet {names : List Text} {name : Text} : name ∈ sortedSet names ↔ name ∈ names := by
  rw [sortedSet, List.mem_insertionSort, List.mem_eraseDups]

theorem nodup_sortedSet (names : List Text) : (sortedSet names).Nodup :=
  (List.perm_insertionSort _ _).nodup_iff.mpr (nodup_eraseDups names)

namespace StubBuilder

variable {Rest : Type u} {builder middle after : StubBuilder Rest}
  {isLowercase : Char → Bool} {names projectQualified : List Text} {key name front : Text}

theorem mem_keys : key ∈ builder.keys ↔ builder.IsKey key := by
  constructor
  · intro mem
    rcases List.mem_map.mp mem with ⟨⟨held, entry⟩, inTable, rfl⟩
    by_contra absent
    rw [IsKey, entryOf, Option.not_isSome_iff_eq_none, List.lookup_eq_none_iff] at absent
    simpa using absent _ inTable
  · intro isKey
    rcases Option.isSome_iff_exists.mp isKey with ⟨entry, found⟩
    exact List.mem_map_of_mem (mem_of_lookup found)

theorem mem_missingNamespaces : front ∈ builder.missingNamespaces ↔
    builder.NamespaceOfKey front ∧ ¬ builder.IsKey front := by
  rw [missingNamespaces, List.mem_insertionSort, List.mem_eraseDups, List.mem_filter, List.mem_flatMap,
    Bool.not_eq_true', List.contains_eq_mem, decide_eq_false_iff_not, mem_keys]
  apply and_congr_left'
  exact exists_congr fun key => and_congr_left' mem_keys

/-- The builder behind stubs of the given names. -/
structure Grown (names : Text → Prop) (builder after : StubBuilder Rest) : Prop where
  keeps : builder.Keeps after
  declared : ∀ name, name ∈ after.knownTypeNames ↔ name ∈ builder.knownTypeNames ∨ names name
  fresh : ∀ key entry, after.entryOf key = some entry →
    builder.entryOf key = some entry ∨
      names key ∧ ¬ builder.IsKey key ∧ entry.referencedTypeNames = []
  stubs : ∀ name ∈ after.synthesizedTypeNames, name ∈ builder.synthesizedTypeNames ∨ names name

theorem Keeps.refl (builder : StubBuilder Rest) : builder.Keeps builder where
  entries _ _ found := found
  interfaces _ _ found := found
  aliases _ _ found := found
  declared _ mem := mem
  stubs _ mem := mem

theorem Keeps.trans (first : builder.Keeps middle) (second : middle.Keeps after) :
    builder.Keeps after where
  entries key entry found := second.entries key entry (first.entries key entry found)
  interfaces leaf methods found := second.interfaces leaf methods (first.interfaces leaf methods found)
  aliases leaf body found := second.aliases leaf body (first.aliases leaf body found)
  declared name mem := second.declared name (first.declared name mem)
  stubs name mem := second.stubs name (first.stubs name mem)

theorem Keeps.isKey (keeps : builder.Keeps after) (isKey : builder.IsKey key) : after.IsKey key := by
  rcases Option.isSome_iff_exists.mp isKey with ⟨entry, found⟩
  exact Option.isSome_iff_exists.mpr ⟨entry, keeps.entries key entry found⟩

namespace Grown

variable {first second both : Text → Prop}

theorem refl (builder : StubBuilder Rest) : Grown (fun _ => False) builder builder where
  keeps := Keeps.refl builder
  declared _ := (or_false _).to_iff.symm
  fresh _ _ found := .inl found
  stubs _ mem := .inl mem

theorem trans (left : Grown first builder middle) (right : Grown second middle after)
    (union : ∀ name, both name ↔ first name ∨ second name) : Grown both builder after where
  keeps := left.keeps.trans right.keeps
  declared name := by rw [right.declared, left.declared, union, or_assoc]
  fresh key entry found := by
    rcases right.fresh key entry found with earlier | ⟨named, absent, empty⟩
    · rcases left.fresh key entry earlier with old | ⟨named, absent, empty⟩
      · exact .inl old
      · exact .inr ⟨(union key).mpr (.inl named), absent, empty⟩
    · exact .inr ⟨(union key).mpr (.inr named), fun isKey => absent (left.keeps.isKey isKey), empty⟩
  stubs name mem := by
    rcases right.stubs name mem with earlier | named
    · rcases left.stubs name earlier with old | named
      · exact .inl old
      · exact .inr ((union name).mpr (.inl named))
    · exact .inr ((union name).mpr (.inr named))

theorem isKey (grown : Grown first builder after) (isKey : after.IsKey key) :
    builder.IsKey key ∨ first key := by
  rcases Option.isSome_iff_exists.mp isKey with ⟨entry, found⟩
  rcases grown.fresh key entry found with old | ⟨named, _, _⟩
  · exact .inl (Option.isSome_iff_exists.mpr ⟨entry, old⟩)
  · exact .inr named

theorem keysDeclared (grown : Grown first builder after)
    (declared : builder.KeysDeclared) : after.KeysDeclared := by
  intro key isKey
  rw [grown.declared]
  exact (grown.isKey isKey).imp_left (declared key)

/-- Stubs of distinct names, none of which is a class key. -/
theorem foldl (stub : StubBuilder Rest → Text → StubBuilder Rest)
    (step : ∀ builder name, ¬ builder.IsKey name → Grown (· = name) builder (stub builder name))
    (names : List Text) (distinct : names.Nodup) (absent : ∀ name ∈ names, ¬ builder.IsKey name) :
    Grown (· ∈ names) builder (names.foldl stub builder) := by
  induction names generalizing builder with
  | nil => exact (refl builder).trans (refl builder) fun name => by simp
  | cons name names ih =>
      rw [List.nodup_cons] at distinct
      have first := step builder name (absent name List.mem_cons_self)
      have later : ∀ other ∈ names, ¬ (stub builder name).IsKey other := by
        intro other mem isKey
        rcases first.isKey isKey with old | rfl
        · exact absent other (List.mem_cons_of_mem _ mem) old
        · exact distinct.1 mem
      exact first.trans (ih distinct.2 later) fun other => List.mem_cons

/-- A stub that makes its name a class key has done so behind all stubs. -/
theorem isKey_foldl (stub : StubBuilder Rest → Text → StubBuilder Rest)
    (step : ∀ builder name, ¬ builder.IsKey name → Grown (· = name) builder (stub builder name))
    (names : List Text) (distinct : names.Nodup) (absent : ∀ name ∈ names, ¬ builder.IsKey name)
    (mem : key ∈ names)
    (makes : ∀ builder : StubBuilder Rest, ¬ builder.IsKey key → (stub builder key).IsKey key) :
    (names.foldl stub builder).IsKey key := by
  induction names generalizing builder with
  | nil => cases mem
  | cons name names ih =>
      rw [List.nodup_cons] at distinct
      have fresh := absent name List.mem_cons_self
      have later : ∀ other ∈ names, ¬ (stub builder name).IsKey other := by
        intro other inRest isKey
        rcases (step builder name fresh).isKey isKey with old | rfl
        · exact absent other (List.mem_cons_of_mem _ inRest) old
        · exact distinct.1 inRest
      rcases List.mem_cons.mp mem with rfl | inRest
      · exact (foldl stub step names distinct.2 later).keeps.isKey (makes builder fresh)
      · exact ih distinct.2 later inRest

end Grown

/-! ## The references of the project -/

theorem isSome_resolveTypeNameRbs_of_keeps {ctx : List Text} (keeps : builder.Keeps after)
    (resolved : (builder.resolveTypeNameRbs name ctx).isSome = true) :
    (after.resolveTypeNameRbs name ctx).isSome = true := by
  have grows (cand : Text) (found : (builder.knownTypeNames.find? (· = cand)).isSome = true) :
      (after.knownTypeNames.find? (· = cand)).isSome = true := by
    rw [List.find?_isSome] at found ⊢
    rcases found with ⟨known, mem, same⟩
    exact ⟨known, keeps.declared known mem, same⟩
  rw [resolveTypeNameRbs] at resolved ⊢
  split at resolved
  next rooted =>
    rw [if_pos rooted]
    exact grows _ resolved
  next relative =>
    rw [if_neg relative]
    simp only [QualifiedTable.resolveWhole, Option.isSome_or, Bool.or_eq_true,
      List.findSome?_isSome_iff] at resolved ⊢
    rcases resolved with ⟨scope, inCtx, found⟩ | found
    · exact .inl ⟨scope, inCtx, grows _ found⟩
    · exact .inr (grows _ found)

theorem resolves_of_keeps {entry : StubEntry Rest} (keeps : builder.Keeps after)
    (resolves : builder.Resolves entry name) : after.Resolves entry name := by
  rcases resolves with ⟨ctx, inCtxs, resolved⟩ | root
  · exact .inl ⟨ctx, inCtxs, isSome_resolveTypeNameRbs_of_keeps keeps resolved⟩
  · exact .inr (keeps.declared _ root)

theorem mem_unresolvedOf {entry : StubEntry Rest} : key ∈ builder.unresolvedOf entry ↔
    ∃ name ∈ entry.referencedTypeNames, ¬ builder.Resolves entry name ∧ stripRoot name = key := by
  rw [unresolvedOf, List.mem_filterMap]
  apply exists_congr
  intro name
  apply and_congr_right'
  rw [Resolves, not_or]
  by_cases inContext : ∃ ctx ∈ entry.memberCtxs, (builder.resolveTypeNameRbs name ctx).isSome = true
  · simp [inContext]
  · by_cases root : stripRoot name ∈ builder.knownTypeNames <;> simp [inContext, root]

theorem mem_unresolvedReferences : key ∈ builder.unresolvedReferences projectQualified ↔
    ∃ qual ∈ projectQualified, ∃ entry, builder.entryOf qual = some entry ∧
      key ∈ builder.unresolvedOf entry := by
  rw [unresolvedReferences, mem_sortedSet, List.mem_flatMap]
  apply exists_congr
  intro qual
  apply and_congr_right'
  cases builder.entryOf qual <;> simp

theorem closed_iff : builder.Closed projectQualified ↔
    builder.unresolvedReferences projectQualified = [] := by
  rw [List.eq_nil_iff_forall_not_mem]
  constructor
  · intro closed missing mem
    rcases mem_unresolvedReferences.mp mem with ⟨qual, inProject, entry, found, unresolved⟩
    rcases mem_unresolvedOf.mp unresolved with ⟨name, referenced, dangling, _⟩
    exact dangling (closed qual inProject entry found name referenced)
  · intro none qual inProject entry found name referenced
    by_contra dangling
    exact none _ (mem_unresolvedReferences.mpr
      ⟨qual, inProject, entry, found, mem_unresolvedOf.mpr ⟨name, referenced, dangling, rfl⟩⟩)

theorem undeclared_of_unresolved (mem : key ∈ builder.unresolvedReferences projectQualified) :
    key ∉ builder.knownTypeNames := by
  rcases mem_unresolvedReferences.mp mem with ⟨_, _, entry, _, unresolved⟩
  rcases mem_unresolvedOf.mp unresolved with ⟨name, _, dangling, rfl⟩
  exact fun root => dangling (.inr root)

theorem mem_stubNames {missing : List Text} : name ∈ builder.stubNames missing ↔
    (name ∈ missing ∨ ∃ whole ∈ missing, name ∈ namespacePrefixes whole) ∧
      name ∉ builder.knownTypeNames := by
  rw [stubNames, List.mem_filter, mem_sortedSet, List.mem_append, List.mem_flatMap, Bool.not_eq_true',
    List.contains_eq_mem, decide_eq_false_iff_not]

theorem absent_of_mem_stubNames {missing : List Text} (declared : builder.KeysDeclared)
    (mem : name ∈ builder.stubNames missing) : ¬ builder.IsKey name :=
  fun isKey => (mem_stubNames.mp mem).2 (declared name isKey)

theorem stubNames_nil : builder.stubNames [] = [] := by
  rw [List.eq_nil_iff_forall_not_mem]
  intro name mem
  rcases (mem_stubNames.mp mem).1 with missing | ⟨_, missing, _⟩ <;> cases missing

/-! ## Stubs of the four kinds -/

/-- A stub that is no class only declares its name. -/
theorem grown_of_qualified (keeps : builder.Keeps after) (entries : after.qualified = builder.qualified)
    (declared : after.knownTypeNames = builder.knownTypeNames.insert name)
    (stubs : after.synthesizedTypeNames = builder.synthesizedTypeNames) :
    Grown (· = name) builder after where
  keeps := keeps
  declared other := by
    rw [declared]
    exact List.mem_insert_iff.trans or_comm
  fresh key entry found := by
    rw [entryOf, entries] at found
    exact .inl found
  stubs other mem := .inl (stubs ▸ mem)

variable [Inhabited Rest]

theorem entryOf_stubClass (isModule : Bool) (sought : Text) (absent : ¬ builder.IsKey key) :
    (builder.stubClass key isModule).entryOf sought =
      if sought == key then some ⟨isModule, [], [], default⟩ else builder.entryOf sought := by
  have missing : builder.qualified.lookup key = none := Option.not_isSome_iff_eq_none.mp absent
  rw [entryOf, stubClass, mergeQualified, lookup_upsert]
  by_cases same : sought = key
  · subst same
    rw [beq_self_eq_true, if_pos rfl, if_pos rfl, missing, Option.getD_none, Bool.or_self]
  · rw [beq_eq_false_iff_ne.mpr same, if_neg Bool.false_ne_true, if_neg Bool.false_ne_true, entryOf]

theorem grown_stubClass (isModule : Bool) (absent : ¬ builder.IsKey key) :
    Grown (· = key) builder (builder.stubClass key isModule) where
  keeps :=
    { entries := by
        intro held entry found
        have apart : (held == key) = false := beq_eq_false_iff_ne.mpr fun same =>
          absent (Option.isSome_iff_exists.mpr ⟨entry, same ▸ found⟩)
        rw [entryOf_stubClass isModule held absent, apart, if_neg Bool.false_ne_true]
        exact found
      interfaces := fun _ _ found => found
      aliases := fun _ _ found => found
      declared := fun _ mem => List.mem_insert_of_mem mem
      stubs := fun _ mem => List.mem_insert_of_mem mem }
  declared name := List.mem_insert_iff.trans or_comm
  fresh held entry found := by
    rw [entryOf_stubClass isModule held absent] at found
    split at found
    next same =>
      cases found
      rw [beq_iff_eq] at same
      exact .inr ⟨same, same ▸ absent, rfl⟩
    next => exact .inl found
  stubs name mem := (List.mem_insert_iff.mp mem).symm

theorem isKey_stubClass (isModule : Bool) (absent : ¬ builder.IsKey key) :
    (builder.stubClass key isModule).IsKey key := by
  rw [IsKey, entryOf_stubClass isModule key absent, beq_self_eq_true, if_pos rfl, Option.isSome_some]

/-- A stub of any kind grows the builder by its name. -/
theorem grown_synthesizeStub (absent : ¬ builder.IsKey name) :
    Grown (· = name) builder (builder.synthesizeStub isLowercase names name) := by
  unfold synthesizeStub
  split
  next => exact grown_stubClass true absent
  split
  next =>
    refine grown_of_qualified ?_ rfl rfl rfl
    exact
      { Keeps.refl builder with
        interfaces := fun _ _ found => lookup_insertNew_of_some [] found
        declared := fun _ mem => List.mem_insert_of_mem mem }
  split
  next =>
    refine grown_of_qualified ?_ rfl rfl rfl
    exact
      { Keeps.refl builder with
        aliases := fun _ _ found => lookup_insertNew_of_some _ found
        declared := fun _ mem => List.mem_insert_of_mem mem }
  next => exact grown_stubClass false absent

/-! ## The namespaces of the declared classes -/

theorem grown_namespaces (builder : StubBuilder Rest) :
    Grown (· ∈ builder.missingNamespaces) builder builder.synthesizeMissingNamespaces :=
  Grown.foldl _ (fun _ _ absent => grown_stubClass true absent) _
    ((List.perm_insertionSort _ _).nodup_iff.mpr (nodup_eraseDups _))
    fun _ mem => (mem_missingNamespaces.mp mem).2

/-- Every namespace of a class is a class behind the first pass. -/
theorem namespacesAreKeys_synthesize (builder : StubBuilder Rest) :
    builder.synthesizeMissingNamespaces.NamespacesAreKeys := by
  intro key isKey front mem
  have around : builder.NamespaceOfKey front := by
    rcases (grown_namespaces builder).isKey isKey with old | stub
    · exact ⟨key, old, mem⟩
    · rcases (mem_missingNamespaces.mp stub).1 with ⟨whole, wholeKey, outer⟩
      exact ⟨whole, wholeKey, prefixes_trans mem outer⟩
  by_cases old : builder.IsKey front
  · exact (grown_namespaces builder).keeps.isKey old
  · exact Grown.isKey_foldl _ (fun _ _ absent => grown_stubClass true absent) _
      ((List.perm_insertionSort _ _).nodup_iff.mpr (nodup_eraseDups _))
      (fun _ missing => (mem_missingNamespaces.mp missing).2)
      (mem_missingNamespaces.mpr ⟨around, old⟩) fun _ absent => isKey_stubClass true absent

/-! ## One round closes the references -/

variable (isLowercase) in
theorem grown_appendStubs (declared : builder.KeysDeclared) (missing : List Text) :
    Grown (· ∈ builder.stubNames missing) builder
      (builder.appendStubs isLowercase (builder.stubNames missing)) :=
  Grown.foldl _ (fun _ _ absent => grown_synthesizeStub absent) _
    ((nodup_sortedSet _).filter _) fun _ mem => absent_of_mem_stubNames declared mem

variable (isLowercase) in
theorem closed_appendStubs (declared : builder.KeysDeclared) (projectQualified : List Text) :
    (builder.appendStubs isLowercase
      (builder.stubNames (builder.unresolvedReferences projectQualified))).Closed projectQualified := by
  have grown := grown_appendStubs isLowercase declared
    (builder.unresolvedReferences projectQualified)
  intro qual inProject entry found name referenced
  rcases grown.fresh qual entry found with old | ⟨_, _, empty⟩
  · by_cases resolves : builder.Resolves entry name
    · exact resolves_of_keeps grown.keeps resolves
    · have missing : stripRoot name ∈ builder.unresolvedReferences projectQualified :=
        mem_unresolvedReferences.mpr
          ⟨qual, inProject, entry, old, mem_unresolvedOf.mpr ⟨name, referenced, resolves, rfl⟩⟩
      right
      rw [grown.declared]
      exact .inr (mem_stubNames.mpr ⟨.inl missing, undeclared_of_unresolved missing⟩)
  · rw [empty] at referenced
    cases referenced

theorem stubRounds_of_closed (closed : builder.Closed projectQualified) (rounds : Nat)
    (previous : Option (List Text)) :
    stubRounds isLowercase projectQualified rounds previous builder = builder := by
  cases rounds with
  | zero => rfl
  | succ rounds =>
      rw [stubRounds, closed_iff.mp closed, List.isEmpty_nil, Bool.true_or, if_pos rfl]

/-- The second round finds nothing to do. -/
theorem stubRounds_eq (declared : builder.KeysDeclared) (rounds : Nat) :
    stubRounds isLowercase projectQualified (rounds + 1) none builder =
      builder.appendStubs isLowercase
        (builder.stubNames (builder.unresolvedReferences projectQualified)) := by
  cases missing : builder.unresolvedReferences projectQualified with
  | nil =>
      rw [stubNames_nil]
      exact stubRounds_of_closed (closed_iff.mpr missing) _ none
  | cons first others =>
      have mem : first ∈ builder.unresolvedReferences projectQualified :=
        missing ▸ List.mem_cons_self
      have named : first ∈ builder.stubNames (first :: others) :=
        mem_stubNames.mpr ⟨.inl List.mem_cons_self, undeclared_of_unresolved mem⟩
      have nonempty : (builder.stubNames (first :: others)).isEmpty = false :=
        List.isEmpty_eq_false_iff_exists_mem.mpr ⟨first, named⟩
      have closed := closed_appendStubs isLowercase declared projectQualified
      rw [missing] at closed
      rw [stubRounds, missing, List.isEmpty_cons, Bool.false_or, if_neg (by simp)]
      simp only [nonempty, Bool.false_eq_true, if_false]
      exact stubRounds_of_closed closed rounds _

/-- The pass is one round behind the stubs of the namespaces. -/
theorem synthesizeMissingReferencedTypes_eq (declared : builder.KeysDeclared) :
    builder.synthesizeMissingReferencedTypes isLowercase projectQualified =
      builder.synthesizeMissingNamespaces.appendStubs isLowercase
        (builder.synthesizeMissingNamespaces.stubNames
          (builder.synthesizeMissingNamespaces.unresolvedReferences projectQualified)) :=
  stubRounds_eq ((grown_namespaces builder).keysDeclared declared) 4

theorem isNamespace_of_mem {names : List Text} (mem : key ∈ names)
    (inner : front ∈ namespacePrefixes key) : isNamespace names front = true := by
  rcases under_of_mem_prefixes inner with ⟨back, rfl⟩
  have longer : under front back ≠ front := by
    intro same
    have lengths := congrArg List.length same
    simp only [under, List.append_assoc, List.length_append] at lengths
    exact absurd lengths (Nat.ne_of_gt (Nat.lt_add_of_pos_right (by simp)))
  rw [isNamespace, List.any_eq_true]
  refine ⟨_, mem, ?_⟩
  rw [Bool.and_eq_true]
  exact ⟨decide_eq_true longer, List.isPrefixOf_iff_prefix.mpr (List.prefix_append _ back)⟩

/-- A namespace of a new class is a class, or it was declared before. -/
theorem namespaces_appendStubs {missing : List Text} (declared : builder.KeysDeclared)
    (mem : key ∈ builder.stubNames missing) (inner : front ∈ namespacePrefixes key) :
    (builder.appendStubs isLowercase (builder.stubNames missing)).IsKey front ∨
      front ∈ builder.knownTypeNames := by
  rw [or_iff_not_imp_right]
  intro undeclared
  have needed : front ∈ builder.stubNames missing := by
    refine mem_stubNames.mpr ⟨.inr ?_, undeclared⟩
    rcases (mem_stubNames.mp mem).1 with whole | ⟨whole, isMissing, outer⟩
    · exact ⟨key, whole, inner⟩
    · exact ⟨whole, isMissing, prefixes_trans inner outer⟩
  refine Grown.isKey_foldl _ (fun _ _ absent => grown_synthesizeStub absent) _
    ((nodup_sortedSet _).filter _) (fun _ mem => absent_of_mem_stubNames declared mem) needed ?_
  intro builder absent
  rw [synthesizeStub, if_pos (isNamespace_of_mem mem inner)]
  exact isKey_stubClass true absent

section Pass

variable (isLowercase) (projectQualified) (declared : builder.KeysDeclared)

include declared

theorem grown_pass :
    Grown (fun name => name ∈ builder.missingNamespaces ∨
        name ∈ builder.synthesizeMissingNamespaces.stubNames
          (builder.synthesizeMissingNamespaces.unresolvedReferences projectQualified))
      builder (builder.synthesizeMissingReferencedTypes isLowercase projectQualified) := by
  have first := grown_namespaces builder
  rw [synthesizeMissingReferencedTypes_eq declared]
  exact first.trans (grown_appendStubs isLowercase (first.keysDeclared declared) _) fun _ => Iff.rfl

theorem closed_pass :
    (builder.synthesizeMissingReferencedTypes isLowercase projectQualified).Closed
      projectQualified := by
  rw [synthesizeMissingReferencedTypes_eq declared]
  exact closed_appendStubs isLowercase ((grown_namespaces builder).keysDeclared declared) _

theorem namespaces_pass
    (isKey : (builder.synthesizeMissingReferencedTypes isLowercase projectQualified).IsKey key)
    (inner : front ∈ namespacePrefixes key) :
    (builder.synthesizeMissingReferencedTypes isLowercase projectQualified).IsKey front ∨
      builder.OtherwiseDeclared front := by
  have first := grown_namespaces builder
  have kept := first.keysDeclared declared
  have second := grown_appendStubs isLowercase kept
    (builder.synthesizeMissingNamespaces.unresolvedReferences projectQualified)
  rw [synthesizeMissingReferencedTypes_eq declared] at isKey ⊢
  rcases second.isKey isKey with old | stub
  · exact .inl (second.keeps.isKey (namespacesAreKeys_synthesize builder key old front inner))
  · rcases namespaces_appendStubs kept stub inner with now | before
    · exact .inl now
    · by_cases isKey : builder.synthesizeMissingNamespaces.IsKey front
      · exact .inl (second.keeps.isKey isKey)
      · have absent : ¬ builder.IsKey front := fun old => isKey (first.keeps.isKey old)
        rcases (first.declared front).mp before with old | missing
        · exact .inr ⟨old, absent⟩
        · rcases (mem_missingNamespaces.mp missing).1 with ⟨whole, wholeKey, outer⟩
          exact absurd
            (namespacesAreKeys_synthesize builder whole (first.keeps.isKey wholeKey) front outer) isKey

theorem undeclared_pass
    (stub : name ∈
      (builder.synthesizeMissingReferencedTypes isLowercase projectQualified).synthesizedTypeNames)
    (new : name ∉ builder.synthesizedTypeNames) :
    name ∉ builder.knownTypeNames ∨ builder.OtherwiseDeclared name ∧ builder.NamespaceOfKey name := by
  have first := grown_namespaces builder
  rcases ((grown_pass isLowercase projectQualified declared).stubs name stub).resolve_left new with
    missing | named
  · have reason := mem_missingNamespaces.mp missing
    by_cases known : name ∈ builder.knownTypeNames
    · exact .inr ⟨⟨known, reason.2⟩, reason.1⟩
    · exact .inl known
  · exact .inl fun known => (mem_stubNames.mp named).2 (first.keeps.declared name known)

end Pass

/-- A builder with nothing to stub is left as it is. -/
theorem synthesizeMissingReferencedTypes_of_closed (namespaces : builder.NamespacesAreKeys)
    (closed : builder.Closed projectQualified) :
    builder.synthesizeMissingReferencedTypes isLowercase projectQualified = builder := by
  have none : builder.missingNamespaces = [] := by
    rw [List.eq_nil_iff_forall_not_mem]
    intro front mem
    rcases mem_missingNamespaces.mp mem with ⟨⟨key, isKey, inner⟩, absent⟩
    exact absent (namespaces key isKey front inner)
  rw [synthesizeMissingReferencedTypes, synthesizeMissingNamespaces, none, List.foldl_nil]
  exact stubRounds_of_closed closed _ _

theorem synthesizeMissingReferencedTypes_laws (isLowercase : Char → Bool)
    (projectQualified : List Text) (builder : StubBuilder Rest) (declared : builder.KeysDeclared) :
    builder.StubLaws projectQualified
      (fun builder => builder.synthesizeMissingReferencedTypes isLowercase projectQualified)
      (builder.synthesizeMissingReferencedTypes isLowercase projectQualified) where
  closed := closed_pass isLowercase projectQualified declared
  namespaces _ isKey _ inner := namespaces_pass isLowercase projectQualified declared isKey inner
  keeps := (grown_pass isLowercase projectQualified declared).keeps
  undeclared _ stub new := undeclared_pass isLowercase projectQualified declared stub new
  stable namespaces :=
    synthesizeMissingReferencedTypes_of_closed namespaces
      (closed_pass isLowercase projectQualified declared)

/-- A class alias `A`, and a class that refers to `A::C`. -/
def aliasedNamespace : StubBuilder Unit where
  qualified := [("D".toList, ⟨false, [["D".toList]], ["A::C".toList], ()⟩)]
  knownTypeNames := ["A".toList, "D".toList]
  synthesizedTypeNames := []
  interfaceMethodNames := []
  typeAliasDefs := []

theorem keysDeclared_aliasedNamespace : aliasedNamespace.KeysDeclared := by
  intro key isKey
  rcases List.mem_map.mp (mem_keys.mpr isKey) with ⟨entry, mem, rfl⟩
  rw [List.mem_singleton.mp mem]
  decide

theorem synthesizeMissingReferencedTypes_aliased :
    aliasedNamespace.StubLaws ["D".toList]
      (fun builder => builder.synthesizeMissingReferencedTypes Char.isLower ["D".toList])
      (aliasedNamespace.synthesizeMissingReferencedTypes Char.isLower ["D".toList]) :=
  synthesizeMissingReferencedTypes_laws Char.isLower ["D".toList] aliasedNamespace
    keysDeclared_aliasedNamespace

/-- The alias stays the namespace of the stub, until a second pass makes it a module. -/
theorem not_namespacesAreKeys_aliased :
    aliasedNamespace.KeysDeclared ∧
      ¬ (aliasedNamespace.synthesizeMissingReferencedTypes Char.isLower
        ["D".toList]).NamespacesAreKeys ∧
      (aliasedNamespace.synthesizeMissingReferencedTypes Char.isLower
          ["D".toList]).synthesizeMissingReferencedTypes Char.isLower ["D".toList] ≠
        aliasedNamespace.synthesizeMissingReferencedTypes Char.isLower ["D".toList] := by
  have once : (aliasedNamespace.synthesizeMissingReferencedTypes Char.isLower ["D".toList]).keys =
      ["D".toList, "A::C".toList] := by decide +kernel
  have twice : ((aliasedNamespace.synthesizeMissingReferencedTypes Char.isLower
      ["D".toList]).synthesizeMissingReferencedTypes Char.isLower ["D".toList]).keys =
      ["D".toList, "A::C".toList, "A".toList] := by decide +kernel
  refine ⟨keysDeclared_aliasedNamespace, ?_, ?_⟩
  · intro namespaces
    have isKey := mem_keys.mp (once ▸ List.mem_cons_of_mem _ List.mem_cons_self)
    have outer := mem_keys.mpr (namespaces _ isKey "A".toList (by decide +kernel))
    rw [once] at outer
    exact absurd outer (by decide)
  · intro same
    rw [same, once] at twice
    exact absurd twice (by decide)

end StubBuilder

end Rigor.Index
