import Rigor.Index.Overloading

/-!
# The side slots of a method

The flat slot of a method, its marks and its side returns are kept in maps of their own, and the
first write of each map wins.  The marks stay with the flat slot, since they are only set together
with it.  A side return that the first definition lacks is taken from a later one.
-/

namespace Rigor.Index

universe u v

inductive MethodDefinitionKind where
  | inst
  | singleton
  | singletonInstance
  deriving DecidableEq

inductive MethodDefinitionVisibility where
  | unspecified
  | pub
  | priv

/-- A `def` of a signature, with what is read off its overloads. -/
structure MethodDefinition (Shapes : Type u) (Sig : Type v) where
  name : Text
  kind : MethodDefinitionKind
  visibility : MethodDefinitionVisibility
  overloading : Bool
  ret : Option Text
  arity : Option (Nat × Option Nat)
  nilable : Bool
  retInstance : Bool
  retSelf : Bool
  retVoid : Bool
  blockRet : Option Text
  blockFreeRet : Option Text
  tupleRet : Option Shapes
  overloads : List Sig

/-- A member of a class body.  A nested declaration has a short and a qualified name. -/
inductive Member (Shapes : Type u) (Sig : Type v) where
  | method (defined : MethodDefinition Shapes Sig)
  | attr (name : Text) (reader writer single : Bool)
  | aliased (new old : Text) (single : Bool)
  | priv
  | pub
  | nested (short qual : Text) (members : List (Member Shapes Sig))

/-- The methods of a class. -/
abbrev MethodTable (Shapes : Type u) (Sig : Type v) :=
  MethodKey → MethodEntry Shapes Sig

/-- A class body as far as it is read: the section modifier in force, and the entry. -/
structure Body (Shapes : Type u) (Sig : Type v) where
  sectionPrivate : Bool
  entry : MethodTable Shapes Sig

/-- The methods of the builder's two tables. -/
structure ClassTables (Shapes : Type u) (Sig : Type v) where
  classes : Text → MethodTable Shapes Sig
  qualified : Text → MethodTable Shapes Sig

variable {Shapes : Type u} {Sig : Type v}

namespace MethodDefinition

/-- `def self.x` defines on the singleton side, `def self?.x` on both. -/
def defines (defined : MethodDefinition Shapes Sig) : MethodKey → Bool
  | (name, single) =>
      name = defined.name && if single then defined.kind != .inst else defined.kind != .singleton

/-- An explicit visibility overrides the section modifier. -/
def isPrivate (defined : MethodDefinition Shapes Sig) (sectionPrivate : Bool) : Bool :=
  match defined.visibility with
  | .priv => true
  | .pub => false
  | .unspecified => sectionPrivate

/-- What the definition says about one side.  The singleton side has no private marks and no block
returns. -/
def sideOf (defined : MethodDefinition Shapes Sig) (single isPrivate : Bool) : PlainDef Shapes Sig where
  slot :=
    if single then ⟨defined.ret, defined.arity, defined.retInstance⟩
    else
      ⟨if defined.ret.isNone && (defined.retInstance || defined.retSelf) then some selfReturn
        else defined.ret, defined.arity, defined.nilable⟩
  isVoid := defined.retVoid
  isPrivate := !single && isPrivate
  tupleReturn := defined.tupleRet
  blockReturn := if single then none else defined.blockRet
  blockFreeReturn := defined.blockFreeRet
  overloads := defined.overloads

end MethodDefinition

namespace MethodEntry

/-- The first write of each map wins; the marks are set with the flat slot. -/
def write (slot : MethodEntry Shapes Sig) (defined : PlainDef Shapes Sig) : MethodEntry Shapes Sig :=
  { slot with
    isVoid := slot.isVoid || (slot.method.isNone && defined.isVoid)
    isPrivate := slot.isPrivate || (slot.method.isNone && defined.isPrivate)
    tupleReturn := slot.tupleReturn.or defined.tupleReturn
    method := slot.method.or (some defined.slot)
    blockReturn := slot.blockReturn.or defined.blockReturn
    blockFreeReturn := slot.blockFreeReturn.or defined.blockFreeReturn
    overloads := slot.overloads.or (some defined.overloads) }

/-- A reopen is kept aside for the merge. -/
def keepAside (slot : MethodEntry Shapes Sig) (defined : PlainDef Shapes Sig) : MethodEntry Shapes Sig :=
  { slot with
    overloadingMethods := slot.overloadingMethods ++ [(defined.slot, defined.isVoid)]
    overloadingOverloads := slot.overloadingOverloads ++ [defined.overloads] }

end MethodEntry

namespace MethodTable

def record (entry : MethodTable Shapes Sig) (defined : MethodDefinition Shapes Sig)
    (sectionPrivate : Bool) : MethodTable Shapes Sig := fun key =>
  if defined.defines key then
    let side := defined.sideOf key.2 (defined.isPrivate sectionPrivate)
    if defined.overloading then (entry key).keepAside side else (entry key).write side
  else entry key

/-- A reader contributes `x`, a writer `x=`. -/
def recordAttr (entry : MethodTable Shapes Sig) (name : Text) (reader writer single : Bool) :
    MethodTable Shapes Sig := fun key =>
  if key.2 = single && (reader && key.1 = name || writer && key.1 = name ++ "=".toList) then
    { entry key with attr := true }
  else entry key

def recordAlias (entry : MethodTable Shapes Sig) (new old : Text) (single : Bool) :
    MethodTable Shapes Sig := fun key =>
  if key = (new, single) then { entry key with aliased := (entry key).aliased.or (some old) }
  else entry key

end MethodTable

def Body.start : Body Shapes Sig :=
  ⟨false, fun _ => .empty⟩

namespace ClassTables

def empty : ClassTables Shapes Sig :=
  ⟨fun _ _ => .empty, fun _ _ => .empty⟩

def merge (tables : ClassTables Shapes Sig) (name : Text) (entry : MethodTable Shapes Sig) :
    ClassTables Shapes Sig :=
  { tables with
    classes := Function.update tables.classes name fun key => (tables.classes name key).merge (entry key) }

def mergeQualified (tables : ClassTables Shapes Sig) (qual : Text) (entry : MethodTable Shapes Sig) :
    ClassTables Shapes Sig :=
  { tables with
    qualified :=
      Function.update tables.qualified qual fun key => (tables.qualified qual key).merge (entry key) }

end ClassTables

mutual

/-- One admitted member.  A nested declaration is merged before the one around it. -/
def collectMember :
    Member Shapes Sig → Body Shapes Sig × ClassTables Shapes Sig → Body Shapes Sig × ClassTables Shapes Sig
  | .method defined, (body, tables) =>
      ({ body with entry := body.entry.record defined body.sectionPrivate }, tables)
  | .attr name reader writer single, (body, tables) =>
      ({ body with entry := body.entry.recordAttr name reader writer single }, tables)
  | .aliased new old single, (body, tables) =>
      ({ body with entry := body.entry.recordAlias new old single }, tables)
  | .priv, (body, tables) => ({ body with sectionPrivate := true }, tables)
  | .pub, (body, tables) => ({ body with sectionPrivate := false }, tables)
  | .nested short qual members, (body, tables) =>
      let (inner, tables) := collectMembers members (.start, tables)
      (body, (tables.mergeQualified qual inner.entry).merge short inner.entry)

def collectMembers :
    List (Member Shapes Sig) → Body Shapes Sig × ClassTables Shapes Sig →
      Body Shapes Sig × ClassTables Shapes Sig
  | [], state => state
  | member :: members, state => collectMembers members (collectMember member state)

end

/-- A declaration at the top of a file. -/
structure ClassDecl (Shapes : Type u) (Sig : Type v) where
  short : Text
  qual : Text
  members : List (Member Shapes Sig)

def ingestClass (tables : ClassTables Shapes Sig) (decl : ClassDecl Shapes Sig) : ClassTables Shapes Sig :=
  let (inner, tables) := collectMembers decl.members (.start, tables)
  (tables.mergeQualified decl.qual inner.entry).merge decl.short inner.entry

def ingestAll (decls : List (ClassDecl Shapes Sig)) : ClassTables Shapes Sig :=
  decls.foldl ingestClass .empty

/-! ## The definitions behind a slot -/

/-- The definitions of a body, each with its privacy. -/
abbrev Definitions (Shapes : Type u) (Sig : Type v) :=
  List (MethodDefinition Shapes Sig × Bool)

/-- A declaration with the definitions of its own, by its two names. -/
structure Declared (Shapes : Type u) (Sig : Type v) where
  short : Text
  qual : Text
  own : Definitions Shapes Sig

namespace Member

/-- The section modifier in force behind a member. -/
def sectionAfter (sectionPrivate : Bool) : Member Shapes Sig → Bool
  | .priv => true
  | .pub => false
  | _ => sectionPrivate

def own (sectionPrivate : Bool) : Member Shapes Sig → Definitions Shapes Sig
  | .method defined => [(defined, defined.isPrivate sectionPrivate)]
  | _ => []

def ownOf : Bool → List (Member Shapes Sig) → Definitions Shapes Sig
  | _, [] => []
  | sectionPrivate, member :: members =>
      member.own sectionPrivate ++ ownOf (member.sectionAfter sectionPrivate) members

mutual

/-- The declarations in a member, in the order in which they are merged. -/
def declared : Member Shapes Sig → List (Declared Shapes Sig)
  | .nested short qual members => declaredIn members ++ [⟨short, qual, ownOf false members⟩]
  | _ => []

def declaredIn : List (Member Shapes Sig) → List (Declared Shapes Sig)
  | [] => []
  | member :: members => declared member ++ declaredIn members

end

end Member

def ClassDecl.declared (decl : ClassDecl Shapes Sig) : List (Declared Shapes Sig) :=
  Member.declaredIn decl.members ++ [⟨decl.short, decl.qual, Member.ownOf false decl.members⟩]

/-- No declaration of the sequence holds an overloading reopen. -/
def WithoutReopens (merged : List (Declared Shapes Sig)) : Prop :=
  ∀ decl ∈ merged, ∀ defined ∈ decl.own, defined.1.overloading = false

/-- What some definitions say about a method key. -/
def sidesOf (key : MethodKey) (definitions : Definitions Shapes Sig) : List (PlainDef Shapes Sig) :=
  definitions.filterMap fun (defined, isPrivate) =>
    if defined.defines key then some (defined.sideOf key.2 isPrivate) else none

/-- What the declarations of one name say about a method key, in the order of their merge. -/
def suppliersOf (nameOf : Declared Shapes Sig → Text) (name : Text) (key : MethodKey)
    (merged : List (Declared Shapes Sig)) : List (PlainDef Shapes Sig) :=
  merged.flatMap fun decl => if nameOf decl = name then sidesOf key decl.own else []

/-- The flat slot and all that goes with it is what the definition says. -/
structure MethodEntry.SuppliedBy (slot : MethodEntry Shapes Sig) (defined : PlainDef Shapes Sig) : Prop where
  method : slot.method = some defined.slot
  isVoid : slot.isVoid = defined.isVoid
  isPrivate : slot.isPrivate = defined.isPrivate
  tupleReturn : slot.tupleReturn = defined.tupleReturn
  blockReturn : slot.blockReturn = defined.blockReturn
  blockFreeReturn : slot.blockFreeReturn = defined.blockFreeReturn

/-- The slot mixes no definitions: it is the one of the first of them. -/
def MethodEntry.Unmixed (slot : MethodEntry Shapes Sig) (suppliers : List (PlainDef Shapes Sig)) : Prop :=
  ∀ first rest, suppliers = first :: rest → slot.SuppliedBy first

/-- The first definition has each side return that any of them has. -/
def FirstCarries (suppliers : List (PlainDef Shapes Sig)) : Prop :=
  ∀ first rest, suppliers = first :: rest → ∀ later ∈ rest,
    (later.tupleReturn.isSome = true → first.tupleReturn.isSome = true) ∧
      (later.blockReturn.isSome = true → first.blockReturn.isSome = true) ∧
      (later.blockFreeReturn.isSome = true → first.blockFreeReturn.isSome = true)

/-! ## What the merge keeps -/

/-- The flat slot and the marks are the first definition's, the side returns are the first ones. -/
structure MethodEntry.Sums (slot : MethodEntry Shapes Sig) (suppliers : List (PlainDef Shapes Sig)) :
    Prop where
  method : slot.method = suppliers.head?.map PlainDef.slot
  isVoid : slot.isVoid = suppliers.head?.any PlainDef.isVoid
  isPrivate : slot.isPrivate = suppliers.head?.any PlainDef.isPrivate
  tupleReturn : slot.tupleReturn = suppliers.findSome? PlainDef.tupleReturn
  blockReturn : slot.blockReturn = suppliers.findSome? PlainDef.blockReturn
  blockFreeReturn : slot.blockFreeReturn = suppliers.findSome? PlainDef.blockFreeReturn
  pending : slot.pending = none
  aside : slot.overloadingMethods = []

namespace MethodEntry

variable {slot entry : MethodEntry Shapes Sig} {suppliers later : List (PlainDef Shapes Sig)}

theorem sums_empty : (empty : MethodEntry Shapes Sig).Sums [] :=
  ⟨rfl, rfl, rfl, rfl, rfl, rfl, rfl, rfl⟩

theorem Sums.write (sums : slot.Sums suppliers) (defined : PlainDef Shapes Sig) :
    (slot.write defined).Sums (suppliers ++ [defined]) := by
  have first : slot.method.isNone = suppliers.isEmpty := by
    rw [sums.method]
    cases suppliers <;> rfl
  constructor
  · show slot.method.or (some defined.slot) = _
    rw [sums.method]
    cases suppliers <;> rfl
  · show (slot.isVoid || (slot.method.isNone && defined.isVoid)) = _
    rw [first, sums.isVoid]
    cases suppliers <;> simp
  · show (slot.isPrivate || (slot.method.isNone && defined.isPrivate)) = _
    rw [first, sums.isPrivate]
    cases suppliers <;> simp
  · show slot.tupleReturn.or defined.tupleReturn = _
    rw [sums.tupleReturn, List.findSome?_append, List.findSome?_singleton]
  · show slot.blockReturn.or defined.blockReturn = _
    rw [sums.blockReturn, List.findSome?_append, List.findSome?_singleton]
  · show slot.blockFreeReturn.or defined.blockFreeReturn = _
    rw [sums.blockFreeReturn, List.findSome?_append, List.findSome?_singleton]
  · exact sums.pending
  · exact sums.aside

theorem Sums.merge (sums : slot.Sums suppliers) (sums' : entry.Sums later) :
    (slot.merge entry).Sums (suppliers ++ later) := by
  have taken : slot.merge entry = slot.mergeInner entry := by
    rw [MethodEntry.merge, take, sums'.aside, sums.pending]
    rfl
  rw [taken]
  have newly : (entry.method.isSome && slot.method.isNone) = (!later.isEmpty && suppliers.isEmpty) := by
    rw [sums.method, sums'.method]
    cases suppliers <;> cases later <;> rfl
  constructor
  · show slot.method.or entry.method = _
    rw [sums.method, sums'.method]
    cases suppliers <;> rfl
  · show (slot.isVoid || ((entry.method.isSome && slot.method.isNone) && entry.isVoid)) = _
    rw [newly, sums.isVoid, sums'.isVoid]
    cases suppliers <;> cases later <;> simp
  · show (slot.isPrivate || ((entry.method.isSome && slot.method.isNone) && entry.isPrivate)) = _
    rw [newly, sums.isPrivate, sums'.isPrivate]
    cases suppliers <;> cases later <;> simp
  · show slot.tupleReturn.or entry.tupleReturn = _
    rw [sums.tupleReturn, sums'.tupleReturn, List.findSome?_append]
  · show slot.blockReturn.or entry.blockReturn = _
    rw [sums.blockReturn, sums'.blockReturn, List.findSome?_append]
  · show slot.blockFreeReturn.or entry.blockFreeReturn = _
    rw [sums.blockFreeReturn, sums'.blockFreeReturn, List.findSome?_append]
  · exact sums.pending
  · exact sums.aside

/-- The first of some options is the head where the head has all that the others have. -/
theorem findSome?_cons_eq_iff {α : Type u} {β : Type v} (f : α → Option β) (first : α) (rest : List α) :
    (first :: rest).findSome? f = f first ↔
      ∀ later ∈ rest, (f later).isSome = true → (f first).isSome = true := by
  rw [List.findSome?_cons]
  cases f first with
  | some value => simp
  | none => simp [List.findSome?_eq_none_iff]

theorem Sums.unmixed_iff (sums : slot.Sums suppliers) : slot.Unmixed suppliers ↔ FirstCarries suppliers := by
  cases suppliers with
  | nil => exact iff_of_true nofun nofun
  | cons first rest =>
      have supplied : slot.SuppliedBy first ↔
          (first :: rest).findSome? PlainDef.tupleReturn = first.tupleReturn ∧
            (first :: rest).findSome? PlainDef.blockReturn = first.blockReturn ∧
            (first :: rest).findSome? PlainDef.blockFreeReturn = first.blockFreeReturn := by
        rw [← sums.tupleReturn, ← sums.blockReturn, ← sums.blockFreeReturn]
        constructor
        · exact fun supplied => ⟨supplied.tupleReturn, supplied.blockReturn, supplied.blockFreeReturn⟩
        · exact fun ⟨tuple, block, blockFree⟩ =>
            ⟨sums.method, sums.isVoid, sums.isPrivate, tuple, block, blockFree⟩
      simp only [findSome?_cons_eq_iff, ← forall_and] at supplied
      constructor
      · rintro unmixed _ _ ⟨⟩
        exact supplied.mp (unmixed first rest rfl)
      · rintro carries _ _ ⟨⟩
        exact supplied.mpr (carries first rest rfl)

end MethodEntry

/-- An entry whose slots sum up the definitions of a body. -/
def BodySums (entry : MethodTable Shapes Sig) (own : Definitions Shapes Sig) : Prop :=
  ∀ key, (entry key).Sums (sidesOf key own)

/-- Tables whose slots sum up the declarations merged so far. -/
structure TableSums (tables : ClassTables Shapes Sig) (merged : List (Declared Shapes Sig)) : Prop where
  classes : ∀ name key, (tables.classes name key).Sums (suppliersOf Declared.short name key merged)
  qualified : ∀ name key, (tables.qualified name key).Sums (suppliersOf Declared.qual name key merged)

theorem bodySums_start : BodySums (Body.start : Body Shapes Sig).entry [] :=
  fun _ => MethodEntry.sums_empty

theorem tableSums_empty : TableSums (ClassTables.empty : ClassTables Shapes Sig) [] :=
  ⟨fun _ _ => MethodEntry.sums_empty, fun _ _ => MethodEntry.sums_empty⟩

section Sums

variable {entry : MethodTable Shapes Sig} {own : Definitions Shapes Sig} {tables : ClassTables Shapes Sig}
  {merged : List (Declared Shapes Sig)}

theorem BodySums.record (sums : BodySums entry own) {defined : MethodDefinition Shapes Sig}
    (plain : defined.overloading = false) (sectionPrivate : Bool) :
    BodySums (entry.record defined sectionPrivate)
      (own ++ [(defined, defined.isPrivate sectionPrivate)]) := by
  intro key
  rw [sidesOf, List.filterMap_append, MethodTable.record, plain]
  cases defines : defined.defines key with
  | false =>
      simp only [List.filterMap_cons, defines, Bool.false_eq_true, if_false, List.filterMap_nil,
        List.append_nil]
      exact sums key
  | true =>
      simp only [List.filterMap_cons, defines, Bool.false_eq_true, if_true, if_false, List.filterMap_nil]
      exact (sums key).write _

theorem BodySums.recordAttr (sums : BodySums entry own) (name : Text) (reader writer single : Bool) :
    BodySums (entry.recordAttr name reader writer single) own := by
  intro key
  rw [MethodTable.recordAttr]
  split
  · exact ⟨(sums key).method, (sums key).isVoid, (sums key).isPrivate, (sums key).tupleReturn,
      (sums key).blockReturn, (sums key).blockFreeReturn, (sums key).pending, (sums key).aside⟩
  · exact sums key

theorem BodySums.recordAlias (sums : BodySums entry own) (new old : Text) (single : Bool) :
    BodySums (entry.recordAlias new old single) own := by
  intro key
  rw [MethodTable.recordAlias]
  split
  · exact ⟨(sums key).method, (sums key).isVoid, (sums key).isPrivate, (sums key).tupleReturn,
      (sums key).blockReturn, (sums key).blockFreeReturn, (sums key).pending, (sums key).aside⟩
  · exact sums key

theorem suppliersOf_append (nameOf : Declared Shapes Sig → Text) (name : Text) (key : MethodKey)
    (decl : Declared Shapes Sig) :
    suppliersOf nameOf name key (merged ++ [decl]) = suppliersOf nameOf name key merged ++
      if nameOf decl = name then sidesOf key decl.own else [] := by
  rw [suppliersOf, suppliersOf, List.flatMap_append, List.flatMap_singleton]

/-- Merging one entry into the tables adds its definitions under both names. -/
theorem TableSums.merge (sums : TableSums tables merged) (body : BodySums entry own) (short qual : Text) :
    TableSums ((tables.mergeQualified qual entry).merge short entry) (merged ++ [⟨short, qual, own⟩]) where
  classes name key := by
    rw [suppliersOf_append]
    by_cases same : short = name
    · subst same
      simp only [ClassTables.merge, ClassTables.mergeQualified, Function.update_self, if_true]
      exact (sums.classes short key).merge (body key)
    · simp only [ClassTables.merge, ClassTables.mergeQualified, Function.update_of_ne (Ne.symm same), if_neg same,
        List.append_nil]
      exact sums.classes name key
  qualified name key := by
    rw [suppliersOf_append]
    by_cases same : qual = name
    · subst same
      simp only [ClassTables.merge, ClassTables.mergeQualified, Function.update_self, if_true]
      exact (sums.qualified qual key).merge (body key)
    · simp only [ClassTables.merge, ClassTables.mergeQualified, Function.update_of_ne (Ne.symm same), if_neg same,
        List.append_nil]
      exact sums.qualified name key

end Sums

/-- The state of a walk over members sums up what has been read. -/
structure Reads (state : Body Shapes Sig × ClassTables Shapes Sig) (sectionPrivate : Bool)
    (own : Definitions Shapes Sig) (merged : List (Declared Shapes Sig)) : Prop where
  modifier : state.1.sectionPrivate = sectionPrivate
  body : BodySums state.1.entry own
  tables : TableSums state.2 merged

mutual

theorem collectMember_reads (member : Member Shapes Sig) {state : Body Shapes Sig × ClassTables Shapes Sig}
    {sectionPrivate : Bool} {own : Definitions Shapes Sig} {merged : List (Declared Shapes Sig)}
    (reads : Reads state sectionPrivate own merged) (plain : WithoutReopens member.declared)
    (plainOwn : ∀ defined ∈ member.own sectionPrivate, defined.1.overloading = false) :
    Reads (collectMember member state) (member.sectionAfter sectionPrivate)
      (own ++ member.own sectionPrivate) (merged ++ member.declared) := by
  rcases state with ⟨body, tables⟩
  rcases reads with ⟨rfl, bodySums, tableSums⟩
  cases member with
  | method defined =>
      simp only [Member.declared, List.append_nil]
      have single := plainOwn (defined, defined.isPrivate body.sectionPrivate) (List.mem_singleton_self _)
      exact ⟨rfl, bodySums.record single body.sectionPrivate, tableSums⟩
  | attr name reader writer single =>
      simp only [Member.declared, Member.own, List.append_nil]
      exact ⟨rfl, bodySums.recordAttr name reader writer single, tableSums⟩
  | aliased new old single =>
      simp only [Member.declared, Member.own, List.append_nil]
      exact ⟨rfl, bodySums.recordAlias new old single, tableSums⟩
  | priv =>
      simp only [Member.declared, Member.own, List.append_nil]
      exact ⟨rfl, bodySums, tableSums⟩
  | pub =>
      simp only [Member.declared, Member.own, List.append_nil]
      exact ⟨rfl, bodySums, tableSums⟩
  | nested short qual members =>
      simp only [Member.declared, Member.own, List.append_nil, ← List.append_assoc]
      have start : Reads ((.start, tables) : Body Shapes Sig × ClassTables Shapes Sig) false [] merged :=
        ⟨rfl, bodySums_start, tableSums⟩
      rw [Member.declared] at plain
      have inside : WithoutReopens (Member.declaredIn members) :=
        fun decl mem => plain decl (List.mem_append_left _ mem)
      have ownInside : ∀ defined ∈ Member.ownOf false members, defined.1.overloading = false :=
        plain _ (List.mem_append_right _ (List.mem_singleton_self _))
      rcases collectMembers_reads members start inside ownInside with ⟨-, -, inner, walked⟩
      exact ⟨rfl, bodySums, walked.merge inner short qual⟩

theorem collectMembers_reads (members : List (Member Shapes Sig))
    {state : Body Shapes Sig × ClassTables Shapes Sig} {sectionPrivate : Bool}
    {own : Definitions Shapes Sig} {merged : List (Declared Shapes Sig)}
    (reads : Reads state sectionPrivate own merged) (plain : WithoutReopens (Member.declaredIn members))
    (plainOwn : ∀ defined ∈ Member.ownOf sectionPrivate members, defined.1.overloading = false) :
    ∃ last, Reads (collectMembers members state) last (own ++ Member.ownOf sectionPrivate members)
      (merged ++ Member.declaredIn members) := by
  cases members with
  | nil =>
      rw [Member.ownOf, Member.declaredIn, List.append_nil, List.append_nil]
      exact ⟨sectionPrivate, reads⟩
  | cons member members =>
      rw [Member.declaredIn] at plain
      rw [Member.ownOf] at plainOwn
      have first := collectMember_reads member reads
        (fun decl mem => plain decl (List.mem_append_left _ mem))
        (fun defined mem => plainOwn defined (List.mem_append_left _ mem))
      rcases collectMembers_reads members first
        (fun decl mem => plain decl (List.mem_append_right _ mem))
        (fun defined mem => plainOwn defined (List.mem_append_right _ mem)) with ⟨last, reads⟩
      rw [Member.ownOf, Member.declaredIn, ← List.append_assoc, ← List.append_assoc]
      exact ⟨last, reads⟩

end

theorem ingestClass_sums {tables : ClassTables Shapes Sig} {merged : List (Declared Shapes Sig)}
    (sums : TableSums tables merged) (decl : ClassDecl Shapes Sig) (plain : WithoutReopens decl.declared) :
    TableSums (ingestClass tables decl) (merged ++ decl.declared) := by
  have start : Reads ((.start, tables) : Body Shapes Sig × ClassTables Shapes Sig) false [] merged :=
    ⟨rfl, bodySums_start, sums⟩
  rcases collectMembers_reads decl.members start (fun inner mem => plain inner (List.mem_append_left _ mem))
    (plain _ (List.mem_append_right _ (List.mem_singleton_self _))) with ⟨-, -, inner, walked⟩
  rw [ClassDecl.declared, ← List.append_assoc]
  exact walked.merge inner decl.short decl.qual

/-- All declarations of a run, in the order in which they are merged. -/
def declaredBy (decls : List (ClassDecl Shapes Sig)) : List (Declared Shapes Sig) :=
  decls.flatMap ClassDecl.declared

theorem ingestAll_sums (decls : List (ClassDecl Shapes Sig)) (plain : WithoutReopens (declaredBy decls)) :
    TableSums (ingestAll decls) (declaredBy decls) := by
  suffices ∀ tables merged, TableSums tables merged →
      TableSums (decls.foldl ingestClass tables) (merged ++ declaredBy decls) from
    this .empty [] tableSums_empty
  induction decls with
  | nil =>
      intro tables merged sums
      rw [declaredBy, List.flatMap_nil, List.append_nil]
      exact sums
  | cons decl decls ih =>
      intro tables merged sums
      rw [declaredBy, List.flatMap_cons] at plain ⊢
      rw [← List.append_assoc]
      exact ih (fun inner mem => plain inner (List.mem_append_right _ mem)) _ _
        (ingestClass_sums sums decl fun inner mem => plain inner (List.mem_append_left _ mem))

/-- In both tables the slots of a method come from one definition exactly when the first one has
every side return that any of them has. -/
theorem ingestAll_unmixed_iff (decls : List (ClassDecl Shapes Sig))
    (plain : WithoutReopens (declaredBy decls)) (name : Text) (key : MethodKey) :
    (((ingestAll decls).classes name key).Unmixed
        (suppliersOf Declared.short name key (declaredBy decls)) ↔
      FirstCarries (suppliersOf Declared.short name key (declaredBy decls))) ∧
    (((ingestAll decls).qualified name key).Unmixed
        (suppliersOf Declared.qual name key (declaredBy decls)) ↔
      FirstCarries (suppliersOf Declared.qual name key (declaredBy decls))) :=
  ⟨((ingestAll_sums decls plain).classes name key).unmixed_iff,
    ((ingestAll_sums decls plain).qualified name key).unmixed_iff⟩

/-- The flat slot and the marks are the first definition's in any case. -/
theorem ingestAll_first (decls : List (ClassDecl Shapes Sig)) (plain : WithoutReopens (declaredBy decls))
    (name : Text) (key : MethodKey) {first : PlainDef Shapes Sig} {rest : List (PlainDef Shapes Sig)}
    (supplied : suppliersOf Declared.short name key (declaredBy decls) = first :: rest) :
    ((ingestAll decls).classes name key).method = some first.slot ∧
      ((ingestAll decls).classes name key).isVoid = first.isVoid ∧
      ((ingestAll decls).classes name key).isPrivate = first.isPrivate := by
  have sums := (ingestAll_sums decls plain).classes name key
  rw [supplied] at sums
  exact ⟨sums.method, sums.isVoid, sums.isPrivate⟩

/-- `def m: () -> String` in one declaration of `A`, and `def m: () -> [..]` in the next. -/
def tupleReopen : List (ClassDecl Unit Unit) :=
  let defined (ret : Option Text) (tuple : Option Unit) : Member Unit Unit :=
    .method ⟨"m".toList, .inst, .unspecified, false, ret, some (0, some 0), false, false, false, false,
      none, none, tuple, []⟩
  [⟨"A".toList, "A".toList, [defined (some "String".toList) none]⟩,
    ⟨"A".toList, "A".toList, [defined none (some ())]⟩]

theorem withoutReopens_tupleReopen : WithoutReopens (declaredBy tupleReopen) := by
  intro decl mem defined own
  simp only [declaredBy, tupleReopen, ClassDecl.declared, Member.declaredIn, Member.declared,
    List.flatMap_cons, List.flatMap_nil, List.nil_append, List.append_nil, List.mem_cons,
    List.mem_append, List.not_mem_nil, or_false] at mem
  rcases mem with rfl | rfl
  · simp only [Member.ownOf, Member.own, List.append_nil, List.mem_singleton] at own
    rw [own]
  · simp only [Member.ownOf, Member.own, List.append_nil, List.mem_singleton] at own
    rw [own]

theorem ingestAll_unmixed_iff_tupleReopen :
    (((ingestAll tupleReopen).classes "A".toList ("m".toList, false)).Unmixed
        (suppliersOf Declared.short "A".toList ("m".toList, false) (declaredBy tupleReopen)) ↔
      FirstCarries (suppliersOf Declared.short "A".toList ("m".toList, false) (declaredBy tupleReopen))) ∧
    (((ingestAll tupleReopen).qualified "A".toList ("m".toList, false)).Unmixed
        (suppliersOf Declared.qual "A".toList ("m".toList, false) (declaredBy tupleReopen)) ↔
      FirstCarries (suppliersOf Declared.qual "A".toList ("m".toList, false) (declaredBy tupleReopen))) :=
  ingestAll_unmixed_iff tupleReopen withoutReopens_tupleReopen _ _

/-- The flat slot is the `String` of the first declaration, the tuple return that of the second. -/
theorem not_ingestAll_unmixed : ¬ ∀ decls : List (ClassDecl Unit Unit), WithoutReopens (declaredBy decls) →
    ∀ name key, ((ingestAll decls).classes name key).Unmixed
      (suppliersOf Declared.short name key (declaredBy decls)) := by
  intro claimed
  have unmixed := claimed tupleReopen withoutReopens_tupleReopen "A".toList ("m".toList, false) _ _ rfl
  have written : ((ingestAll tupleReopen).classes "A".toList ("m".toList, false)).tupleReturn = some () := rfl
  exact nomatch written.symm.trans unmixed.tupleReturn

end Rigor.Index
