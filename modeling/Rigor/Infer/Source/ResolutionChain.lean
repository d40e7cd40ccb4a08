import Rigor.Infer.Source.Ancestry

/-!
# Ruby's ancestor order for a project class

The builder puts the chains of the prepended modules before a class, the chains of the
included modules after it, and the chain of the superclass last.  A module that is met a
second time is a fork.  One fork is settled by reading the chain with and without the second
insertion; at every other fork the builder fails.
-/

namespace Rigor.Infer.Source

open Rigor.Text (splitColons stripRoot)

universe v

/-- `CHAIN_LIMIT`: the project entries that a chain may hold. -/
def chainLimit : Nat :=
  100

/-- `MIXIN_WILDCARD`. -/
def mixinWildcard : Text :=
  "*".toList

/-- The fields of the ancestry index that the resolution reads. -/
structure AncestryIndex where
  includeListed : List (Text × List Text)
  possible : Finset (Text × Text)
  contested : Finset (Text × Text)
  dirty : Finset Text
  groups : List (Text × List (Bool × List Text))
  declFiles : List (Text × Nat)
  defOwners : Finset Text

/-- The tables of the merged index from which a definer is resolved. -/
structure DefinerTables (Refinement : Type v) extends AncestorTables Refinement where
  ancestry : AncestryIndex
  discoveredMethods : List (Text × Finset Text)

/-- What the resolution asks of the core signatures. -/
structure CoreSurface where
  knowsQualifiedClass : Text → Bool
  qualifiedClassHasMethod : Text → Text → Bool
  knowsToplevelClass : Text → Bool
  classHasMethod : Text → Text → Bool

namespace CoreSurface

variable (core : CoreSurface)

/-- The answer of the first candidate that the signatures know. -/
def candidateLacks (method : Text) : List Text → Bool
  | [] => false
  | candidate :: candidates =>
      if core.knowsQualifiedClass candidate then !core.qualifiedClassHasMethod candidate method
      else if (splitColons candidate).length = 1 && core.knowsToplevelClass candidate then
        !core.classHasMethod candidate method
      else candidateLacks method candidates

/-- `external_lacks`. -/
def externalLacks (owner raw method : Text) : Bool :=
  core.candidateLacks method (scopedCandidates owner raw)

end CoreSurface

/-! ## The builder -/

inductive ChainEntry where
  | project (name : Text)
  | external (raw owner : Text)
  deriving DecidableEq

namespace ChainEntry

def isProject : ChainEntry → Bool
  | .project _ => true
  | .external _ _ => false

end ChainEntry

/-- An entry, and whether the one settled fork inserted it. -/
abbrev Tagged :=
  ChainEntry × Bool

structure Builder where
  nodes : List Text
  failed : Bool
  forks : Nat

/-- The recursive call of the builder. -/
abbrev Linearise :=
  Text → Builder → List Tagged × Builder

def holdsEntry (entries : List Tagged) (entry : ChainEntry) : Bool :=
  entries.any (·.1 == entry)

/-- `Builder::forks`: some project entry of the chain is already there. -/
def forks (entries sub : List Tagged) : Bool :=
  sub.any fun tagged => tagged.1.isProject && holdsEntry entries tagged.1

/-- The positions of the project entries that are already there. -/
def presentAt (entries sub : List Tagged) : List Nat :=
  (List.range sub.length).filter fun i =>
    sub[i]?.any fun tagged => tagged.1.isProject && holdsEntry entries tagged.1

/-- The chain under construction, the length of its prepend region, and the builder. -/
structure Splice where
  origin : Nat
  entries : List Tagged
  builder : Builder

/-- The arguments of the statements of one kind, the last argument of a statement first, each
spelling once. -/
def mixinOrder (prepends : Bool) (groups : List (Bool × List Text)) : List Text :=
  (groups.filter (·.1 == prepends)).foldl
    (fun names group => group.2.reverse.foldl pushNew names) []

def projectCount (entries : List Tagged) : Nat :=
  entries.countP (·.1.isProject)

namespace DefinerTables

variable {Refinement : Type v} (tables : DefinerTables Refinement)

/-- `known_user`. -/
def knownUser (name : Text) : Bool :=
  match tables.overrideClasses.lookup name with
  | none => false
  | some entry =>
      entry.superclass.isSome || entry.methods.Nonempty || !entry.includes.isEmpty ||
        !entry.methodVisibilities.isEmpty || name ∈ tables.ancestry.defOwners ||
        (tables.ancestry.includeListed.lookup name).isSome

/-- `Builder::sub_lin`. -/
def subLin (lin : Linearise) (owner raw : Text) (builder : Builder) : List Tagged × Builder :=
  match tables.resolveOverrideAncestor owner raw with
  | some name =>
      if tables.knownUser name then lin name builder
      else ([(.external (stripRoot raw) owner, false)], builder)
  | none => ([(.external (stripRoot raw) owner, false)], builder)

/-- The chain of a prepended name goes before everything. -/
def insertPrepend (lin : Linearise) (owner : Text) (splice : Splice) (raw : Text) : Splice :=
  let (sub, builder) := tables.subLin lin owner raw splice.builder
  let module := (tables.resolveOverrideAncestor owner raw).map ChainEntry.project
  let inRegion := module.any (holdsEntry (splice.entries.take splice.origin))
  let others := sub.filter fun tagged => some tagged.1 != module
  { origin := splice.origin + sub.length
    entries := sub ++ splice.entries
    builder :=
      { builder with failed := builder.failed || inRegion || forks splice.entries others } }

/-- The one fork that is settled: only the last entry is already there. -/
def settleFork (entries sub : List Tagged) (builder : Builder) : List Tagged × Builder :=
  let last := sub.length - 1
  if builder.forks = 0 && presentAt entries sub == [last] && !sub.any (·.2) then
    (sub.modify last fun tagged => (tagged.1, true), { builder with forks := 1 })
  else (sub, { builder with failed := true })

/-- The chain of an included name goes right after the class. -/
def insertInclude (lin : Linearise) (owner : Text) (splice : Splice) (raw : Text) : Splice :=
  let (sub, builder) := tables.subLin lin owner raw splice.builder
  let (sub, builder) :=
    if forks splice.entries sub then settleFork splice.entries sub builder else (sub, builder)
  { splice with
    entries := splice.entries.take (splice.origin + 1) ++ sub ++
      splice.entries.drop (splice.origin + 1)
    builder := builder }

/-- The chain of a class that the override index holds. -/
def linEntry (lin : Linearise) (name : Text) (entry : OverrideClass Refinement)
    (builder : Builder) : List Tagged × Builder :=
  let (inherited, builder) :=
    match entry.superclass with
    | none => ([], builder)
    | some sup => tables.subLin lin name sup builder
  let groups := (tables.ancestry.groups.lookup name).getD []
  let prepends := mixinOrder true groups
  let includes := (mixinOrder false groups).filter fun raw => !prepends.contains raw
  -- An edge that no statement accounts for has no known order.
  let unseen := entry.includes.any fun raw => !prepends.contains raw && !includes.contains raw
  let start : Splice :=
    { origin := 0
      entries := (.project name, false) :: inherited
      builder := { builder with failed := builder.failed || unseen } }
  let prepended := prepends.foldl (tables.insertPrepend lin name) start
  let done := includes.foldl (tables.insertInclude lin name) prepended
  (done.entries,
    { done.builder with
      failed := done.builder.failed || decide (chainLimit < projectCount done.entries) })

/-- `Builder::lin`.  The stack holds the classes whose chains are being built. -/
def lin : Nat → List Text → Linearise
  | 0, _, _, builder => ([], { builder with failed := true })
  | fuel + 1, stack, name, builder =>
      if builder.failed || stack.contains name then ([], { builder with failed := true })
      else
        let builder := { builder with nodes := pushNew builder.nodes name }
        match tables.overrideClasses.lookup name with
        | none => ([(.project name, false)], builder)
        | some entry => tables.linEntry (lin fuel (name :: stack)) name entry builder

/-- A node whose mixin order is not a fact. -/
structure Mark where
  node : Text
  listed : List Text
  multiFile : Bool

structure Chain where
  entries : List ChainEntry
  retro : Option (List ChainEntry)
  marks : List Mark

/-- `mark_of`. -/
def markOf (node : Text) : Option Mark :=
  let listed := (tables.ancestry.includeListed.lookup node).getD []
  let edges := ((tables.overrideClasses.lookup node).map (·.includes.length)).getD 0 +
    (listed.filter (· != mixinWildcard)).length
  let multiFile := 2 ≤ edges && 2 ≤ (tables.ancestry.declFiles.lookup node).getD 0
  if listed.isEmpty && !multiFile then none else some ⟨node, listed, multiFile⟩

/-- More fuel than the builder can use: no class is twice on the stack. -/
def linFuel : Nat :=
  tables.overrideClasses.length + 2

/-- `instance_chain`. -/
def instanceChain (className : Text) : Option Chain :=
  if tables.declares className then
    let (tagged, builder) := tables.lin tables.linFuel [] className ⟨[], false, 0⟩
    if builder.failed then none
    else
      some
        { entries := tagged.map Prod.fst
          retro :=
            if builder.forks = 1 then some ((tagged.filter (!·.2)).map Prod.fst) else none
          marks := builder.nodes.filterMap tables.markOf }
  else none

/-! ## Marks that cannot move the definer -/

def contestedSlot (owner method : Text) : Bool :=
  (owner, method) ∈ tables.ancestry.contested || (owner, mixinWildcard) ∈ tables.ancestry.contested

def uncertainDefiner (owner method : Text) : Bool :=
  (owner, method) ∈ tables.ancestry.possible || tables.contestedSlot owner method

/-- `records_name`: some table records the method. -/
def recordsName (name method : Text) : Bool :=
  (tables.overrideClasses.lookup name).any (fun entry =>
      method ∈ entry.methods || (entry.methodVisibilities.lookup method).isSome) ||
    (name, method) ∈ tables.ancestry.possible || tables.contestedSlot name method ||
    tables.ownerDefines name method .inst || tables.ownerDefines name method .singleton ||
    (tables.discoveredMethods.lookup name).any (fun methods => method ∈ methods)

def wildcardInclude (owner : Text) : Bool :=
  (tables.ancestry.includeListed.lookup owner).any (·.contains mixinWildcard)

variable (core : CoreSurface)

/-- `closure_clean`: nothing on the chain of the name can answer the method. -/
def closureClean (node raw method : Text) : Bool :=
  match (tables.resolveOverrideAncestor node raw).filter tables.knownUser with
  | some name =>
      match tables.instanceChain name with
      | none => false
      | some chain =>
          chain.entries.all fun
            | .external raw owner => core.externalLacks owner raw method
            | .project name =>
                !tables.wildcardInclude name && name ∉ tables.ancestry.dirty &&
                  !tables.recordsName name method
  | none => core.externalLacks node raw method

def discharged (mark : Mark) (method : Text) : Bool :=
  let edges := ((tables.overrideClasses.lookup mark.node).map (·.includes)).getD [] ++ mark.listed
  !mark.listed.contains mixinWildcard &&
    mark.listed.all (tables.closureClean core mark.node · method) &&
    (!mark.multiFile || edges.countP (!tables.closureClean core mark.node · method) ≤ 1)

/-! ## The definer -/

/-- The first definer among the entries; an entry that may answer first hides it. -/
def firstDefinerIn (method : Text) (defines : Text → Bool) : List ChainEntry → Option Text
  | [] => none
  | .external raw owner :: entries =>
      if core.externalLacks owner raw method then firstDefinerIn method defines entries else none
  | .project name :: entries =>
      if tables.uncertainDefiner name method then none
      else if defines name then some name
      else firstDefinerIn method defines entries

/-- The entries after the class itself. -/
def afterSelf (className : Text) : List ChainEntry → Option (List ChainEntry)
  | [] => none
  | entry :: entries =>
      if entry = .project className then some entries else afterSelf className entries

/-- `first_definer`. -/
def firstDefiner (entries : List ChainEntry) (className method : Text) (skipSelf : Bool)
    (defines : Text → Bool) : Option Text :=
  (if skipSelf then afterSelf className entries else some entries).bind
    (tables.firstDefinerIn core method defines)

/-- `settled_definer`. -/
def settledDefiner (className method : Text) (skipSelf : Bool) (defines : Text → Bool) :
    Option Text :=
  match tables.instanceChain className with
  | none => none
  | some chain =>
      if chain.marks.all (tables.discharged core · method) then
        (tables.firstDefiner core chain.entries className method skipSelf defines).bind fun answer =>
          match chain.retro with
          | none => some answer
          | some retro =>
              (tables.firstDefiner core retro className method skipSelf defines).bind fun other =>
                if other = answer then some answer else none
      else none

/-- `resolve_instance_owner`: the walk's owner, if it is the settled definer. -/
def resolveInstanceOwner (qual method : Text) : Option Text :=
  (tables.resolveInstanceOwnerBfs qual method).bind fun owner =>
    if tables.settledDefiner core qual method false (tables.ownerDefines · method .inst) = some owner
    then some owner else none

/-! ## The fuel -/

variable {tables}

theorem mem_keys_of_lookup {name : Text} {entry : OverrideClass Refinement}
    (found : tables.overrideClasses.lookup name = some entry) :
    name ∈ tables.overrideClasses.map Prod.fst :=
  List.mem_map_of_mem (Library.Grouping.mem_of_lookup found)

theorem lin_succ (fuel : Nat) (stack : List Text) (distinct : stack.Nodup)
    (declared : ∀ name ∈ stack, name ∈ tables.overrideClasses.map Prod.fst)
    (enough : tables.overrideClasses.length < fuel + stack.length) :
    tables.lin (fuel + 1) stack = tables.lin fuel stack := by
  induction fuel generalizing stack with
  | zero =>
      have bound := (List.subperm_of_subset distinct declared).length_le
      rw [List.length_map] at bound
      omega
  | succ fuel ih =>
      funext name builder
      rw [lin, lin]
      by_cases closed : (builder.failed || stack.contains name) = true
      · rw [if_pos closed, if_pos closed]
      · rw [if_neg closed, if_neg closed]
        have fresh : name ∉ stack := by
          simp only [Bool.or_eq_true, List.contains_iff_mem, not_or] at closed
          exact closed.2
        rcases found : tables.overrideClasses.lookup name with _ | entry
        · rfl
        · have deeper := ih (name :: stack) (List.nodup_cons.mpr ⟨fresh, distinct⟩)
            (List.forall_mem_cons.mpr ⟨mem_keys_of_lookup found, declared⟩)
            (by rw [List.length_cons]; omega)
          simp only [deeper]

/-- The fuel of the chain is enough: more fuel builds the same chain. -/
theorem lin_linFuel (more : Nat) : tables.lin (tables.linFuel + more) [] = tables.lin tables.linFuel [] := by
  induction more with
  | zero => rfl
  | succ more ih =>
      rw [← ih, ← Nat.add_assoc]
      exact lin_succ _ [] List.nodup_nil (by simp) (by simp only [linFuel, List.length_nil]; omega)

end DefinerTables

end Rigor.Infer.Source
