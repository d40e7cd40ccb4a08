import Rigor.Index.Absence

/-!
# One declaration answers for a method

Eight lookups answer for a method of a class: its return, whether that may be `nil`,
its arity, whether it is `void`, its tuple return, its overloads, and its returns
without and with a block.  Each walks the ancestors on its own.  A trace records the
declarations that an answer rests on, and the results here say when all of these are
the first ones on the chain.
-/

namespace Rigor.Index

universe u v w

/-- `MethodSlot`: the return, the arity envelope and the flag of a method. -/
structure MethodSlot where
  ret : Option Text
  arity : Option (Nat × Option Nat)
  nilable : Bool

/-- An entry with the side slots of its methods, over the shapes of tuple returns and the
retained overloads. -/
structure DeclEntry (Shapes : Type u) (Overloads : Type v) extends ClassEntry MethodSlot where
  voidMethods : List Text
  tupleReturns : List (Text × Shapes)
  methodOverloads : List (Text × Overloads)
  blockReturns : List (Text × Text)
  blockFreeReturns : List (Text × Text)

structure DeclData (Shapes : Type u) (Overloads : Type v) where
  classes : List (Text × DeclEntry Shapes Overloads)
  /-- The classes whose qualified entry has no instance surface. -/
  qualifiedUnbuildable : List Text

/-- `SELF_RETURN`: the receiver's own class. -/
def selfReturn : Text :=
  "\x00self".toList

namespace DeclData

variable {Shapes : Type u} {Overloads : Type v}

def entry? (data : DeclData Shapes Overloads) (name : Text) : Option (DeclEntry Shapes Overloads) :=
  data.classes.lookup name

def instances (data : DeclData Shapes Overloads) : CoreData MethodSlot :=
  ⟨data.classes.map fun loaded => (loaded.1, loaded.2.toClassEntry)⟩

/-- The ancestors of a class; the walk always ends. -/
def chainOf (data : DeclData Shapes Overloads) (className : Text) : List Text :=
  ((data.instances.ancestors className).map Prod.fst).getD []

section Lookup

variable {α : Type w} (data : DeclData Shapes Overloads)

/-- The first entry of the chain at which a slot stops the walk. -/
def firstStop (slot : DeclEntry Shapes Overloads → Text → Option (Option α)) (chain : List Text)
    (method : Text) : Option (Text × Option α) :=
  chain.findSome? fun anc =>
    (data.entry? anc).bind fun entry => (slot entry method).map fun found => (anc, found)

/-- The walks of the lookups.  A slot may stop the walk without an answer. -/
def lookupDepth (slot : DeclEntry Shapes Overloads → Text → Option (Option α))
    (chain : List Text) : Nat → Text → Option α
  | remaining, method =>
      match data.firstStop slot chain method with
      | some (_, found) => found
      | none =>
          match remaining with
          | 0 => none
          | remaining + 1 =>
              chain.findSome? fun anc =>
                (data.entry? anc).bind fun entry =>
                  (entry.aliases.lookup method).bind fun old =>
                    lookupDepth slot chain remaining old

end Lookup

/-! ## The slots -/

def flatSlot (entry : DeclEntry Shapes Overloads) (method : Text) : Option (Option MethodSlot) :=
  (entry.methods.lookup method).map some

def overloadSlot (entry : DeclEntry Shapes Overloads) (method : Text) : Option (Option Overloads) :=
  (entry.methodOverloads.lookup method).map some

def blockSlot (entry : DeclEntry Shapes Overloads) (method : Text) : Option (Option Text) :=
  (entry.blockReturns.lookup method).map some

/-- The first definer's slot is the only admissible answer. -/
def definerSlot {α : Type w} (read : DeclEntry Shapes Overloads → Text → Option α)
    (entry : DeclEntry Shapes Overloads) (method : Text) : Option (Option α) :=
  (entry.methods.lookup method).map fun _ => read entry method

def blockFreeSlot : DeclEntry Shapes Overloads → Text → Option (Option Text) :=
  definerSlot fun entry method => entry.blockFreeReturns.lookup method

def tupleSlot : DeclEntry Shapes Overloads → Text → Option (Option Shapes) :=
  definerSlot fun entry method => entry.tupleReturns.lookup method

def voidSlot : DeclEntry Shapes Overloads → Text → Option (Option Unit) :=
  definerSlot fun entry method => if entry.voidMethods.contains method then some () else none

/-! ## The eight lookups -/

section Answers

variable (data : DeclData Shapes Overloads)

def resolveCallSiteReturn (ret : Option Text) (receiver : Text) : Option Text :=
  ret.bind fun name =>
    if name = selfReturn then (data.entry? receiver).map fun _ => receiver else some name

def methodReturn (className method : Text) : Option Text :=
  data.resolveCallSiteReturn
    ((data.lookupDepth flatSlot (data.chainOf className) 16 method).bind MethodSlot.ret) className

def methodReturnNilable (className method : Text) : Option (Text × Bool) :=
  (data.lookupDepth flatSlot (data.chainOf className) 16 method).bind fun found =>
    (data.resolveCallSiteReturn found.ret className).map fun name => (name, found.nilable)

def methodArity (className method : Text) : Option (Nat × Option Nat) :=
  if (data.entry? className).any (fun entry => entry.instanceUnbuildable) ||
      data.qualifiedUnbuildable.contains className then none
  else (data.lookupDepth flatSlot (data.chainOf className) 16 method).bind MethodSlot.arity

def methodReturnIsVoid (className method : Text) : Bool :=
  (data.lookupDepth voidSlot (data.chainOf className) 0 method).isSome

def methodTupleReturn (className method : Text) : Option Shapes :=
  data.lookupDepth tupleSlot (data.chainOf className) 0 method

def methodOverloads (className method : Text) : Option Overloads :=
  data.lookupDepth overloadSlot (data.chainOf className) 16 method

def methodReturnBlockFree (className method : Text) : Option Text :=
  data.lookupDepth blockFreeSlot (data.chainOf className) 16 method

def methodReturnWithBlock (className method : Text) : Option Text :=
  data.resolveCallSiteReturn (data.lookupDepth blockSlot (data.chainOf className) 16 method) className

end Answers

/-! ## The first declaration -/

section Traces

variable {α : Type w} (data : DeclData Shapes Overloads)

def declares (entry : DeclEntry Shapes Overloads) (method : Text) : Bool :=
  (entry.methods.lookup method).isSome || (entry.aliases.lookup method).isSome

/-- The first entry of a chain that declares a method, directly or as an alias. -/
def firstDeclarer (chain : List Text) (method : Text) : Option Text :=
  chain.find? fun anc => (data.entry? anc).any fun entry => declares entry method

def declaringAncestor (className method : Text) : Option Text :=
  (data.entry? className).bind fun _ =>
    (data.instances.ancestors className).bind fun (chain, complete) =>
      if complete then data.firstDeclarer chain method else none

/-- Where the source reports an owner, it is the first declarer. -/
theorem firstDeclarer_of_declaringAncestor {className method owner : Text}
    (declared : data.declaringAncestor className method = some owner) :
    data.firstDeclarer (data.chainOf className) method = some owner := by
  obtain ⟨entry, -, declared⟩ := Option.bind_eq_some_iff.mp declared
  obtain ⟨⟨chain, complete⟩, walked, declared⟩ := Option.bind_eq_some_iff.mp declared
  rw [chainOf, walked]
  simp only [Option.ite_none_right_eq_some] at declared
  exact declared.2

def aliasOf? (anc method : Text) : Option Text :=
  (data.entry? anc).bind fun entry => entry.aliases.lookup method

/-- The walk of `lookupDepth` with the declarations it follows, the answering one last. -/
def traceDepth (slot : DeclEntry Shapes Overloads → Text → Option (Option α))
    (chain : List Text) : Nat → Text → Option (List (Text × Text) × α)
  | remaining, method =>
      match data.firstStop slot chain method with
      | some (anc, found) => found.map fun value => ([(anc, method)], value)
      | none =>
          match remaining with
          | 0 => none
          | remaining + 1 =>
              chain.findSome? fun anc =>
                (data.aliasOf? anc method).bind fun old =>
                  (traceDepth slot chain remaining old).map fun (trace, value) =>
                    ((anc, method) :: trace, value)

/-- A lookup declines, or every declaration its answer rests on is the first one. -/
def RestsOnFirst {β : Type w} (slot : DeclEntry Shapes Overloads → Text → Option (Option α))
    (chain : List Text) (remaining : Nat) (method : Text) (read : α → Option β)
    (answer : Option β) : Prop :=
  answer = none ∨ ∃ trace found, data.traceDepth slot chain remaining method = some (trace, found) ∧
    read found = answer ∧ ∀ step ∈ trace, data.firstDeclarer chain step.2 = some step.1

/-! ## Answers that stray -/

variable (slot : DeclEntry Shapes Overloads → Text → Option (Option α)) (chain : List Text)

/-- Some path of aliases ends at a slot with an answer. -/
inductive Leads : Nat → Text → Prop where
  | stop {remaining : Nat} {method anc : Text} {found : α}
      (stop : data.firstStop slot chain method = some (anc, some found)) : Leads remaining method
  | aliased {remaining : Nat} {method anc old : Text}
      (unstopped : data.firstStop slot chain method = none) (onChain : anc ∈ chain)
      (renames : data.aliasOf? anc method = some old) (leads : Leads remaining old) :
      Leads (remaining + 1) method

/-- The nearest alias of a method that leads somewhere. -/
def NearestAlias (remaining : Nat) (method anc old : Text) : Prop :=
  data.aliasOf? anc method = some old ∧ data.Leads slot chain remaining old ∧
    ∃ front back, chain = front ++ anc :: back ∧
      ∀ nearer ∈ front, ∀ target, data.aliasOf? nearer method = some target →
        ¬ data.Leads slot chain remaining target

/-- The slot at the end of the nearest aliases. -/
inductive Ends : Nat → Text → α → Prop where
  | stop {remaining : Nat} {method anc : Text} {found : α}
      (stop : data.firstStop slot chain method = some (anc, some found)) :
      Ends remaining method found
  | aliased {remaining : Nat} {method anc old : Text} {found : α}
      (unstopped : data.firstStop slot chain method = none)
      (nearest : data.NearestAlias slot chain remaining method anc old)
      (ends : Ends remaining old found) : Ends (remaining + 1) method found

/-- Where a walk leaves the first declaration: at a slot of another ancestor, at an alias
of another ancestor, or beyond an alias. -/
inductive Strays (answers : α → Prop) : Nat → Text → Prop where
  | shadowed {remaining : Nat} {method anc : Text} {found : α}
      (stop : data.firstStop slot chain method = some (anc, some found)) (answer : answers found)
      (later : data.firstDeclarer chain method ≠ some anc) : Strays answers remaining method
  | bypassed {remaining : Nat} {method anc old : Text} {found : α}
      (unstopped : data.firstStop slot chain method = none)
      (nearest : data.NearestAlias slot chain remaining method anc old)
      (ends : data.Ends slot chain remaining old found) (answer : answers found)
      (later : data.firstDeclarer chain method ≠ some anc) : Strays answers (remaining + 1) method
  | beyond {remaining : Nat} {method anc old : Text}
      (unstopped : data.firstStop slot chain method = none)
      (nearest : data.NearestAlias slot chain remaining method anc old)
      (strays : Strays answers remaining old) : Strays answers (remaining + 1) method

variable {data slot chain} {remaining : Nat} {method anc : Text}

theorem traceDepth_of_stop {found : Option α}
    (stop : data.firstStop slot chain method = some (anc, found)) :
    data.traceDepth slot chain remaining method =
      found.map fun value => ([(anc, method)], value) := by
  cases remaining with
  | zero => rw [traceDepth, stop]
  | succ remaining => rw [traceDepth, stop]

theorem traceDepth_of_unstopped (unstopped : data.firstStop slot chain method = none) :
    data.traceDepth slot chain (remaining + 1) method =
      chain.findSome? fun anc => (data.aliasOf? anc method).bind fun old =>
        (data.traceDepth slot chain remaining old).map fun (trace, value) =>
          ((anc, method) :: trace, value) := by
  rw [traceDepth, unstopped]

theorem traceDepth_zero_of_unstopped (unstopped : data.firstStop slot chain method = none) :
    data.traceDepth slot chain 0 method = none := by
  rw [traceDepth, unstopped]

/-- The trace accompanies the lookup. -/
theorem map_traceDepth (remaining : Nat) (method : Text) :
    (data.traceDepth slot chain remaining method).map Prod.snd =
      data.lookupDepth slot chain remaining method := by
  induction remaining generalizing method with
  | zero =>
      rw [traceDepth, lookupDepth]
      rcases data.firstStop slot chain method with _ | ⟨anc, _ | found⟩ <;> rfl
  | succ remaining ih =>
      rw [traceDepth, lookupDepth]
      rcases data.firstStop slot chain method with _ | ⟨anc, _ | found⟩
      · rw [List.map_findSome?]
        apply congrArg (List.findSome? · chain)
        funext anc
        rcases found : data.entry? anc with _ | entry
        · simp [aliasOf?, found]
        · rcases renames : entry.aliases.lookup method with _ | old
          · simp [aliasOf?, found, renames]
          · simp [aliasOf?, found, renames, ← ih, Function.comp_def]
      · rfl
      · rfl

theorem leads_iff : data.Leads slot chain remaining method ↔
    (data.traceDepth slot chain remaining method).isSome = true := by
  induction remaining generalizing method with
  | zero =>
      rcases stopped : data.firstStop slot chain method with _ | ⟨anc, _ | found⟩
      · rw [traceDepth_zero_of_unstopped stopped]
        constructor
        · intro leads
          cases leads with
          | stop stop => simp [stopped] at stop
        · intro impossible
          simp at impossible
      · rw [traceDepth_of_stop stopped]
        constructor
        · intro leads
          cases leads with
          | stop stop => simp [stopped] at stop
        · intro impossible
          simp at impossible
      · rw [traceDepth_of_stop stopped]
        exact ⟨fun _ => rfl, fun _ => .stop stopped⟩
  | succ remaining ih =>
      rcases stopped : data.firstStop slot chain method with _ | ⟨anc, _ | found⟩
      · rw [traceDepth_of_unstopped stopped, List.findSome?_isSome_iff]
        constructor
        · intro leads
          cases leads with
          | stop stop => simp [stopped] at stop
          | aliased _ onChain renames leads =>
              exact ⟨_, onChain, by simpa [renames] using ih.mp leads⟩
        · rintro ⟨anc, onChain, led⟩
          rcases renames : data.aliasOf? anc method with _ | old
          · simp [renames] at led
          · exact .aliased stopped onChain renames (ih.mpr (by simpa [renames] using led))
      · rw [traceDepth_of_stop stopped]
        constructor
        · intro leads
          cases leads with
          | stop stop => simp [stopped] at stop
          | aliased unstopped _ _ _ => simp [stopped] at unstopped
        · intro impossible
          simp at impossible
      · rw [traceDepth_of_stop stopped]
        exact ⟨fun _ => rfl, fun _ => .stop stopped⟩

theorem not_leads_iff : ¬ data.Leads slot chain remaining method ↔
    data.traceDepth slot chain remaining method = none := by
  rw [leads_iff, Option.not_isSome_iff_eq_none]

/-- A walk that does not stop follows the nearest alias. -/
theorem traceDepth_succ_eq_some_iff (unstopped : data.firstStop slot chain method = none)
    {trace : List (Text × Text)} {found : α} :
    data.traceDepth slot chain (remaining + 1) method = some (trace, found) ↔
      ∃ anc old rest, data.NearestAlias slot chain remaining method anc old ∧
        data.traceDepth slot chain remaining old = some (rest, found) ∧
        trace = (anc, method) :: rest := by
  rw [traceDepth_of_unstopped unstopped, List.findSome?_eq_some_iff]
  constructor
  · rintro ⟨front, anc, back, split, answered, declined⟩
    rcases renames : data.aliasOf? anc method with _ | old
    · simp [renames] at answered
    · rw [renames, Option.bind_some, Option.map_eq_some_iff] at answered
      obtain ⟨⟨rest, value⟩, walked, same⟩ := answered
      obtain ⟨rfl, rfl⟩ := Prod.mk.inj same
      refine ⟨anc, old, rest, ⟨renames, ?_, front, back, split, ?_⟩, walked, rfl⟩
      · simp [leads_iff, walked]
      · intro nearer isNearer target renamed
        have declines := declined nearer isNearer
        rw [renamed, Option.bind_some, Option.map_eq_none_iff] at declines
        exact not_leads_iff.mpr declines
  · rintro ⟨anc, old, rest, ⟨renames, -, front, back, split, declined⟩, walked, rfl⟩
    refine ⟨front, anc, back, split, ?_, ?_⟩
    · rw [renames, Option.bind_some, walked, Option.map_some]
    · intro nearer isNearer
      rcases renamed : data.aliasOf? nearer method with _ | target
      · rfl
      · rw [Option.bind_some, Option.map_eq_none_iff]
        exact not_leads_iff.mp (declined nearer isNearer target renamed)

/-- A walk ends where it stops, or goes on from the nearest alias. -/
theorem traceDepth_cases {trace : List (Text × Text)} {found : α}
    (walked : data.traceDepth slot chain remaining method = some (trace, found)) :
    (∃ anc, data.firstStop slot chain method = some (anc, some found) ∧ trace = [(anc, method)]) ∨
    ∃ anc old rest fewer, remaining = fewer + 1 ∧ data.firstStop slot chain method = none ∧
      data.NearestAlias slot chain fewer method anc old ∧
      data.traceDepth slot chain fewer old = some (rest, found) ∧ trace = (anc, method) :: rest := by
  rcases stopped : data.firstStop slot chain method with _ | ⟨anc, _ | value⟩
  · cases remaining with
    | zero => simp [traceDepth_zero_of_unstopped stopped] at walked
    | succ fewer =>
        obtain ⟨anc, old, rest, nearest, walked, same⟩ :=
          (traceDepth_succ_eq_some_iff stopped).mp walked
        exact .inr ⟨anc, old, rest, fewer, rfl, rfl, nearest, walked, same⟩
  · simp [traceDepth_of_stop stopped] at walked
  · simp only [traceDepth_of_stop stopped, Option.map_some, Option.some.injEq, Prod.mk.injEq] at walked
    obtain ⟨rfl, rfl⟩ := walked
    exact .inl ⟨anc, rfl, rfl⟩

theorem ends_iff {found : α} : data.Ends slot chain remaining method found ↔
    ∃ trace, data.traceDepth slot chain remaining method = some (trace, found) := by
  constructor
  · intro ends
    induction ends with
    | stop stop => exact ⟨_, traceDepth_of_stop stop⟩
    | aliased unstopped nearest _ ih =>
        obtain ⟨rest, walked⟩ := ih
        exact ⟨_, (traceDepth_succ_eq_some_iff unstopped).mpr ⟨_, _, rest, nearest, walked, rfl⟩⟩
  · rintro ⟨trace, walked⟩
    induction trace generalizing remaining method with
    | nil =>
        rcases traceDepth_cases walked with ⟨_, _, impossible⟩ | ⟨_, _, _, _, _, _, _, _, impossible⟩
        · nomatch impossible
        · nomatch impossible
    | cons step trace ih =>
        rcases traceDepth_cases walked with
          ⟨anc, stopped, -⟩ | ⟨anc, old, rest, fewer, rfl, unstopped, nearest, walked, same⟩
        · exact .stop stopped
        · cases same
          exact .aliased unstopped nearest (ih walked)

/-- What a trace that follows a later declaration says about the table. -/
theorem strays_iff {answers : α → Prop} :
    data.Strays slot chain answers remaining method ↔
      ∃ trace found, data.traceDepth slot chain remaining method = some (trace, found) ∧
        answers found ∧ ∃ step ∈ trace, data.firstDeclarer chain step.2 ≠ some step.1 := by
  constructor
  · intro strays
    induction strays with
    | shadowed stop answer later =>
        exact ⟨_, _, traceDepth_of_stop stop, answer, _, List.mem_singleton_self _, later⟩
    | bypassed unstopped nearest ends answer later =>
        obtain ⟨rest, walked⟩ := ends_iff.mp ends
        exact ⟨_, _, (traceDepth_succ_eq_some_iff unstopped).mpr ⟨_, _, rest, nearest, walked, rfl⟩,
          answer, _, List.mem_cons_self, later⟩
    | beyond unstopped nearest _ ih =>
        obtain ⟨rest, found, walked, answer, step, mem, later⟩ := ih
        exact ⟨_, _, (traceDepth_succ_eq_some_iff unstopped).mpr ⟨_, _, rest, nearest, walked, rfl⟩,
          answer, step, List.mem_cons_of_mem _ mem, later⟩
  · rintro ⟨trace, found, walked, answer, step, mem, later⟩
    induction trace generalizing remaining method with
    | nil => exact absurd mem List.not_mem_nil
    | cons first trace ih =>
        rcases traceDepth_cases walked with
          ⟨anc, stopped, same⟩ | ⟨anc, old, rest, fewer, rfl, unstopped, nearest, rested, same⟩
        · cases same
          obtain rfl := List.mem_singleton.mp mem
          exact .shadowed stopped answer later
        · cases same
          rcases List.mem_cons.mp mem with rfl | mem
          · exact .bypassed unstopped nearest (ends_iff.mpr ⟨_, rested⟩) answer later
          · exact .beyond unstopped nearest (ih rested mem)

/-- A lookup rests on first declarations unless its walk strays on the way to an answer. -/
theorem restsOnFirst_iff {β : Type w} {read : α → Option β} {answer : Option β}
    (answered : (data.lookupDepth slot chain remaining method).bind read = answer) :
    data.RestsOnFirst slot chain remaining method read answer ↔
      ¬ data.Strays slot chain (fun found => (read found).isSome) remaining method := by
  rw [strays_iff]
  have accompanied := @map_traceDepth _ _ _ data slot chain remaining method
  constructor
  · rintro (declined | ⟨trace, found, walked, -, first⟩)
    · rintro ⟨trace, found, walked, answers, -⟩
      rw [walked, Option.map_some] at accompanied
      simp [← accompanied, ← answered] at declined
      simp [declined] at answers
    · rintro ⟨trace', found', walked', -, step, mem, later⟩
      obtain ⟨rfl, -⟩ := Prod.mk.inj (Option.some.inj (walked'.symm.trans walked))
      exact later (first step mem)
  · intro settled
    rcases walked : data.traceDepth slot chain remaining method with _ | ⟨trace, found⟩
    · rw [walked, Option.map_none] at accompanied
      exact .inl (by rw [← answered, ← accompanied, Option.bind_none])
    · rw [walked, Option.map_some] at accompanied
      rw [← accompanied, Option.bind_some] at answered
      rcases read? : read found with _ | value
      · exact .inl (answered ▸ read?)
      · refine .inr ⟨trace, found, walked, answered, fun step mem => ?_⟩
        by_contra later
        exact settled ⟨trace, found, walked, by simp [read?], step, mem, later⟩

end Traces

/-! ## The lookups against the first declarer -/

inductive Lookup where
  | methodReturn
  | methodReturnNilable
  | methodArity
  | methodReturnIsVoid
  | methodTupleReturn
  | methodOverloads
  | methodReturnBlockFree
  | methodReturnWithBlock

section Lookups

variable (data : DeclData Shapes Overloads) (className method : Text)

def hidesSurface : Bool :=
  (data.entry? className).any (fun entry => entry.instanceUnbuildable) ||
    data.qualifiedUnbuildable.contains className

/-- The lookup declines, or answers from the first declaration and through its alias target. -/
def AnswersFromFirst : Lookup → Prop
  | .methodReturn =>
      data.RestsOnFirst flatSlot (data.chainOf className) 16 method
        (fun found => data.resolveCallSiteReturn found.ret className)
        (data.methodReturn className method)
  | .methodReturnNilable =>
      data.RestsOnFirst flatSlot (data.chainOf className) 16 method
        (fun found => (data.resolveCallSiteReturn found.ret className).map fun name =>
          (name, found.nilable))
        (data.methodReturnNilable className method)
  | .methodArity =>
      data.RestsOnFirst flatSlot (data.chainOf className) 16 method MethodSlot.arity
        (data.methodArity className method)
  | .methodReturnIsVoid =>
      data.RestsOnFirst voidSlot (data.chainOf className) 0 method some
        (if data.methodReturnIsVoid className method then some () else none)
  | .methodTupleReturn =>
      data.RestsOnFirst tupleSlot (data.chainOf className) 0 method some
        (data.methodTupleReturn className method)
  | .methodOverloads =>
      data.RestsOnFirst overloadSlot (data.chainOf className) 16 method some
        (data.methodOverloads className method)
  | .methodReturnBlockFree =>
      data.RestsOnFirst blockFreeSlot (data.chainOf className) 16 method some
        (data.methodReturnBlockFree className method)
  | .methodReturnWithBlock =>
      data.RestsOnFirst blockSlot (data.chainOf className) 16 method
        (fun found => data.resolveCallSiteReturn (some found) className)
        (data.methodReturnWithBlock className method)

/-- The table leads the walk of the lookup away from the first declaration. -/
def LeadsAstray : Lookup → Prop
  | .methodReturn | .methodReturnNilable =>
      data.Strays flatSlot (data.chainOf className) (fun found => found.ret.isSome) 16 method
  | .methodArity => data.hidesSurface className = false ∧
      data.Strays flatSlot (data.chainOf className) (fun found => found.arity.isSome) 16 method
  | .methodReturnIsVoid =>
      data.Strays voidSlot (data.chainOf className) (fun _ => True) 0 method
  | .methodTupleReturn =>
      data.Strays tupleSlot (data.chainOf className) (fun _ => True) 0 method
  | .methodOverloads =>
      data.Strays overloadSlot (data.chainOf className) (fun _ => True) 16 method
  | .methodReturnBlockFree =>
      data.Strays blockFreeSlot (data.chainOf className) (fun _ => True) 16 method
  | .methodReturnWithBlock =>
      data.Strays blockSlot (data.chainOf className) (fun _ => True) 16 method

variable {data className method}

theorem isSome_resolveCallSiteReturn {entry : DeclEntry Shapes Overloads}
    (loaded : data.entry? className = some entry) (ret : Option Text) :
    (data.resolveCallSiteReturn ret className).isSome = ret.isSome := by
  cases ret with
  | none => rfl
  | some name => by_cases self : name = selfReturn <;> simp [resolveCallSiteReturn, self, loaded]

/-- A receiver of the flat table: a lookup answers from the first declaration unless the
table leads it astray. -/
theorem answersFromFirst_iff {entry : DeclEntry Shapes Overloads}
    (loaded : data.entry? className = some entry) (lookup : Lookup) :
    data.AnswersFromFirst className method lookup ↔ ¬ data.LeadsAstray className method lookup := by
  have resolves := isSome_resolveCallSiteReturn loaded
  cases lookup with
  | methodReturn =>
      rw [AnswersFromFirst, restsOnFirst_iff, LeadsAstray]
      · simp only [resolves]
      · rw [methodReturn, resolveCallSiteReturn, Option.bind_assoc]
        rfl
  | methodReturnNilable =>
      refine (restsOnFirst_iff rfl).trans ?_
      simp only [LeadsAstray, Option.isSome_map, resolves]
  | methodArity =>
      rcases hidden : data.hidesSurface className with _ | _
      · rw [AnswersFromFirst, restsOnFirst_iff, LeadsAstray]
        · simp [hidden]
        · rw [methodArity, ← hidesSurface, if_neg (by simp [hidden])]
      · have declines : data.methodArity className method = none := by
          rw [methodArity, ← hidesSurface, if_pos hidden]
        simp [AnswersFromFirst, LeadsAstray, RestsOnFirst, declines, hidden]
  | methodReturnIsVoid =>
      rw [AnswersFromFirst, restsOnFirst_iff, LeadsAstray]
      · simp only [Option.isSome_some]
      · rw [methodReturnIsVoid]
        rcases data.lookupDepth voidSlot (data.chainOf className) 0 method with _ | ⟨⟩ <;> rfl
  | methodTupleReturn =>
      refine (restsOnFirst_iff (Option.bind_fun_some _)).trans ?_
      simp only [LeadsAstray, Option.isSome_some]
  | methodOverloads =>
      refine (restsOnFirst_iff (Option.bind_fun_some _)).trans ?_
      simp only [LeadsAstray, Option.isSome_some]
  | methodReturnBlockFree =>
      refine (restsOnFirst_iff (Option.bind_fun_some _)).trans ?_
      simp only [LeadsAstray, Option.isSome_some]
  | methodReturnWithBlock =>
      rw [AnswersFromFirst, restsOnFirst_iff, LeadsAstray]
      · simp only [resolves, Option.isSome_some]
      · rw [methodReturnWithBlock]
        rcases data.lookupDepth blockSlot (data.chainOf className) 16 method with _ | ret <;> rfl

end Lookups

/-- The flat walk is that of the class table. -/
theorem lookupDepth_flatSlot (data : DeclData Shapes Overloads) (chain : List Text)
    (remaining : Nat) (method : Text) :
    data.lookupDepth flatSlot chain remaining method =
      data.instances.lookupOnChainDepth chain remaining method := by
  have entries (anc : Text) : data.instances.entry? anc =
      (data.entry? anc).map DeclEntry.toClassEntry :=
    Library.Grouping.lookup_mapValues _ data.classes anc
  have stops (name : Text) : data.firstStop flatSlot chain name =
      chain.findSome? fun anc => ((data.instances.entry? anc).bind fun entry =>
        entry.methods.lookup name).map fun found => (anc, some found) := by
    apply congrArg (List.findSome? · chain)
    funext anc
    rw [entries]
    cases data.entry? anc with
    | none => rfl
    | some entry => simp [flatSlot, Function.comp_def]
  have found (name : Text) : (data.firstStop flatSlot chain name).map Prod.snd =
      (chain.findSome? fun anc => (data.instances.entry? anc).bind fun entry =>
        entry.methods.lookup name).map some := by
    rw [stops, List.map_findSome?, List.map_findSome?]
    simp only [Function.comp_def, Option.map_map]
  induction remaining generalizing method with
  | zero =>
      rw [lookupDepth, CoreData.lookupOnChainDepth]
      have same := found method
      revert same
      rcases data.firstStop flatSlot chain method with _ | ⟨anc, stopped⟩
      · intro same
        rw [Option.map_eq_none_iff.mp same.symm]
      · intro same
        obtain ⟨slot, walked, rfl⟩ := Option.map_eq_some_iff.mp same.symm
        rw [walked]
  | succ remaining ih =>
      rw [lookupDepth, CoreData.lookupOnChainDepth]
      have same := found method
      revert same
      rcases data.firstStop flatSlot chain method with _ | ⟨anc, stopped⟩
      · intro same
        rw [Option.map_eq_none_iff.mp same.symm]
        apply congrArg (List.findSome? · chain)
        funext anc
        rw [entries]
        cases data.entry? anc with
        | none => rfl
        | some entry => simp only [Option.bind_some, Option.map_some, ih]
      · intro same
        obtain ⟨slot, walked, rfl⟩ := Option.map_eq_some_iff.mp same.symm
        rw [walked]

/-! ## An override without a block overload -/

/-- `Child` overrides `each` of `Base`; only the definition of `Base` takes a block. -/
def overridden : DeclData Unit Unit where
  classes :=
    [("Child".toList,
      { methods := [("each".toList, ⟨some "Integer".toList, none, false⟩)]
        attrMethods := [], aliases := [], superclass := some "Base".toList, includes := []
        prepends := [], instanceUnbuildable := false, voidMethods := [], tupleReturns := []
        methodOverloads := [], blockReturns := [], blockFreeReturns := [] }),
     ("Base".toList,
      { methods := [("each".toList, ⟨some "Integer".toList, none, false⟩)]
        attrMethods := [], aliases := [], superclass := none, includes := []
        prepends := [], instanceUnbuildable := false, voidMethods := [], tupleReturns := []
        methodOverloads := [], blockReturns := [("each".toList, "String".toList)]
        blockFreeReturns := [] })]
  qualifiedUnbuildable := []

theorem answersFromFirst_base :
    overridden.AnswersFromFirst "Base".toList "each".toList .methodReturnWithBlock ↔
      ¬ overridden.LeadsAstray "Base".toList "each".toList .methodReturnWithBlock :=
  answersFromFirst_iff rfl _

/-- The block return comes from the superclass although the class overrides the method. -/
theorem not_answersFromFirst_overridden :
    ¬ ∀ (data : DeclData Unit Unit) (className method : Text), (data.entry? className).isSome = true →
      ∀ lookup, data.AnswersFromFirst className method lookup := by
  intro claimed
  rcases claimed overridden "Child".toList "each".toList rfl .methodReturnWithBlock with
    declined | ⟨trace, found, walked, -, first⟩
  · exact absurd declined (by decide)
  · have astray : overridden.traceDepth blockSlot (overridden.chainOf "Child".toList) 16 "each".toList =
        some ([("Base".toList, "each".toList)], "String".toList) := by decide
    obtain ⟨rfl, -⟩ := Prod.mk.inj (Option.some.inj (astray.symm.trans walked))
    exact absurd (first _ List.mem_cons_self) (by decide)

end DeclData

end Rigor.Index
