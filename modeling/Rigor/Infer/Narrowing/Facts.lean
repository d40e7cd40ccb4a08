import Mathlib.Data.Finset.Card
import Mathlib.Logic.Function.Basic
import Rigor.Infer.Narrowing.Syntax

/-!
# Class facts

What the class narrowing knows of the locals, what ends a fact, and the joins of the facts of
several branches.
-/

namespace Rigor.Infer.Narrowing

inductive ClassFact where
  /-- The local was narrowed to this class. -/
  | narrowed (className : Text)
  /-- No value passes the guard. -/
  | bot
  /-- The guard class and the carrier are not ordered. -/
  | widened
  deriving DecidableEq

/-- The facts of the locals. -/
abbrev Facts := Text → Option ClassFact

/-- The type of a local as far as the guards read it, with the class it dispatches on. -/
inductive Carrier where
  | dynamic
  | nominal (className : Option Text)
  /-- A constant, a tuple or a hash shape. -/
  | shaped (className : Option Text)
  | other
  deriving DecidableEq

abbrev Types := Text → Option Carrier

/-- `MUTATOR_METHODS`. -/
def mutatorMethods : List Text :=
  ["<<", "push", "append", "prepend", "unshift", "concat", "insert", "pop", "shift", "delete",
    "delete_at", "delete_if", "reject!", "clear", "compact!", "replace", "fill", "[]=", "map!",
    "collect!", "select!", "filter!", "keep_if", "uniq!", "flatten!", "sort!", "sort_by!",
    "reverse!", "rotate!", "shuffle!", "slice!", "store", "merge!", "update",
    "transform_keys!", "transform_values!", "setbyte", "bytesplice", "append_as_bytes",
    "force_encoding", "sub!", "gsub!", "tr!", "tr_s!", "delete!", "squeeze!", "succ!", "next!",
    "upcase!", "downcase!", "capitalize!", "swapcase!", "strip!", "lstrip!", "rstrip!",
    "chomp!", "chop!", "delete_prefix!", "delete_suffix!", "encode!", "scrub!",
    "unicode_normalize!", "bit_set", "bit_clear", "bit_flip", "bitwise_not!", "bitwise_and!",
    "bitwise_or!", "bitwise_xor!"].map String.toList

/-- The local that a mutator call changes in place. -/
def Node.mutates : Node → List Text
  | .call _ (some receiver) method _ _ =>
      if method ∈ mutatorMethods then (bareLocal receiver).toList else []
  | _ => []

/-- The names written in these nodes, with the locals that each call may change in place as an
argument.  A write in a blocked position is dropped. -/
def writesIn (floored : Nat → List Text) (found : List (Bool × Node)) : List Text :=
  found.flatMap fun entry =>
    (if entry.1 then [] else entry.2.binds ++ entry.2.mutates) ++ entry.2.callId.flatMap floored

/-- An assigned name is written, unless it is bound in a blocked position or by a clause. -/
theorem mem_writesIn_of_assigned {floored : Nat → List Text} {found : List (Bool × Node)}
    {name : Text} (assigned : name ∈ assignedIn found) :
    name ∈ writesIn floored found ∨ (∃ node, (true, node) ∈ found ∧ name ∈ node.binds) ∨
      ∃ entry ∈ found, name ∈ entry.2.rescued := by
  rcases List.mem_flatMap.mp assigned with ⟨⟨blocked, node⟩, mem, here⟩
  rcases List.mem_append.mp here with bound | rescued
  · cases blocked with
    | false =>
        left
        apply List.mem_flatMap.mpr
        refine ⟨(false, node), mem, ?_⟩
        simp [bound]
    | true => exact .inr (.inl ⟨node, mem, bound⟩)
  · exact .inr (.inr ⟨(blocked, node), mem, rescued⟩)

namespace Facts

/-- `kill_local`. -/
def kill (facts : Facts) (name : Text) : Facts :=
  Function.update facts name none

def killAll (facts : Facts) (names : List Text) : Facts :=
  fun name => if name ∈ names then none else facts name

/-- `kill_cenv_narrowed`. -/
def killNarrowed (facts : Facts) (names : List Text) : Facts :=
  fun name =>
    match facts name with
    | some (.narrowed className) => if name ∈ names then none else some (.narrowed className)
    | fact => fact

/-- `join_cenv`. -/
def join (facts : Facts) (edges : List Facts) : Facts :=
  fun name =>
    match facts name with
    | some .bot => if edges.all (· name = some .bot) then some .bot else none
    | some .widened => if edges.all (· name = some .widened) then some .widened else none
    | _ => none

/-- `retain_joined_facts`. -/
def retain (facts before : Facts) (edges : List Facts) (written : List Text) : Facts :=
  fun name =>
    if edges ≠ [] ∧ name ∉ written ∧ before name ≠ none ∧ edges.all (· name = before name) then
      before name
    else facts name

/-- `propagate_widened`, over edges with whether each ends its flow. -/
def propagateWidened (facts : Facts) (edges : List (Facts × Bool)) (written : List Text) :
    Facts :=
  fun name =>
    if name ∉ written ∧ edges.any (fun edge => !edge.2 && edge.1 name = some .widened) then
      some .widened
    else facts name

/-- Some facts put back. -/
def restore (facts before : Facts) (names : List Text) : Facts :=
  fun name => if name ∈ names ∧ before name ≠ none then before name else facts name

/-- The facts of these names taken from another table. -/
def replace (facts other : Facts) (names : List Text) : Facts :=
  fun name => if name ∈ names then other name else facts name

end Facts

/-- Every narrowing of the first table is one of the second. -/
def Narrower (first second : Facts) : Prop :=
  ∀ name className, first name = some (.narrowed className) →
    second name = some (.narrowed className)

/-- Every narrowing of the first table is one of the second and names none of these locals. -/
def Spares (first second : Facts) (names : List Text) : Prop :=
  ∀ name className, first name = some (.narrowed className) →
    second name = some (.narrowed className) ∧ name ∉ names

namespace Narrower

variable {first second third : Facts}

theorem refl (facts : Facts) : Narrower facts facts :=
  fun _ _ => id

theorem trans (left : Narrower first second) (right : Narrower second third) :
    Narrower first third :=
  fun name className narrowed => right name className (left name className narrowed)

theorem kill (facts : Facts) (name : Text) : Narrower (facts.kill name) facts := by
  intro other className narrowed
  by_cases same : other = name
  · rw [same, Facts.kill, Function.update_self] at narrowed
    cases narrowed
  · rwa [Facts.kill, Function.update_of_ne same] at narrowed

theorem killAll (facts : Facts) (names : List Text) :
    Spares (facts.killAll names) facts names := by
  intro name className narrowed
  unfold Facts.killAll at narrowed
  split at narrowed
  · nomatch narrowed
  · exact ⟨narrowed, ‹_›⟩

theorem killNarrowed (facts : Facts) (names : List Text) :
    Spares (facts.killNarrowed names) facts names := by
  intro name className narrowed
  unfold Facts.killNarrowed at narrowed
  split at narrowed
  · rename_i found
    split at narrowed
    · nomatch narrowed
    · exact ⟨found.trans narrowed, ‹_›⟩
  · rename_i notNarrowed
    exact absurd narrowed (notNarrowed className)

/-- A join keeps no narrowing. -/
theorem join_ne (facts : Facts) (edges : List Facts) (name className : Text) :
    facts.join edges name ≠ some (.narrowed className) := by
  unfold Facts.join
  split
  · split <;> nofun
  · split <;> nofun
  · nofun

/-- A narrowing retained after a join was there before and is on every edge. -/
theorem of_retain {facts before : Facts} {edges : List Facts} {written : List Text}
    {name className : Text}
    (narrowed : facts.retain before edges written name = some (.narrowed className)) :
    facts name = some (.narrowed className) ∨
      (before name = some (.narrowed className) ∧ name ∉ written ∧
        ∀ edge ∈ edges, edge name = some (.narrowed className)) := by
  unfold Facts.retain at narrowed
  split at narrowed
  · rename_i kept
    right
    refine ⟨narrowed, kept.2.1, ?_⟩
    intro edge mem
    have same := List.all_eq_true.mp kept.2.2.2 edge mem
    rw [decide_eq_true_eq] at same
    exact same.trans narrowed
  · exact .inl narrowed

theorem propagateWidened (facts : Facts) (edges : List (Facts × Bool)) (written : List Text) :
    Narrower (facts.propagateWidened edges written) facts := by
  intro name className narrowed
  unfold Facts.propagateWidened at narrowed
  split at narrowed
  · nomatch narrowed
  · exact narrowed

end Narrower

namespace Spares

variable {first second third : Facts} {names more : List Text}

theorem narrower (spares : Spares first second names) : Narrower first second :=
  fun name className narrowed => (spares name className narrowed).1

theorem refl (facts : Facts) : Spares facts facts [] :=
  fun _ _ narrowed => ⟨narrowed, List.not_mem_nil⟩

theorem trans (left : Spares first second names) (right : Spares second third more) :
    Spares first third (more ++ names) := by
  intro name className narrowed
  have spared := left name className narrowed
  have earlier := right name className spared.1
  refine ⟨earlier.1, ?_⟩
  rw [List.mem_append]
  exact fun mem => mem.elim earlier.2 spared.2

theorem mono (spares : Spares first second names) (within : ∀ name ∈ more, name ∈ names) :
    Spares first second more :=
  fun name className narrowed =>
    have spared := spares name className narrowed
    ⟨spared.1, fun mem => spared.2 (within name mem)⟩

theorem of_narrower (left : Narrower first second) (right : Spares second third names) :
    Spares first third names :=
  fun name className narrowed => right name className (left name className narrowed)

theorem of_none (none : ∀ name className, first name ≠ some (.narrowed className)) :
    Spares first second names :=
  fun name className narrowed => absurd narrowed (none name className)

end Spares

/-! ### Coarse locals -/

/-- `narrowable_binding`. -/
def narrowableBinding (coarse : List Text) : Nat → Node → Bool
  | 0, _ => false
  | _ + 1, .localRead name => name ∉ coarse
  | _ + 1, .variableRead => true
  | depth + 1, .call _ (some receiver) _ _ _ => narrowableBinding coarse depth receiver
  | _ + 1, _ => false

/-- The bindings of a node, without a value where the local is coarse whatever the value. -/
def Node.bindings : Node → List (Text × Option Node)
  | .localWrite name value => [(name, some value)]
  | .localOpWrite name _ => [(name, none)]
  | .beginRescue _ clauses _ _ => (boundNames clauses).map fun name => (name, none)
  | _ => []

/-- One binding of a round. -/
def coarsen (coarse : List Text) (binding : Text × Option Node) : List Text :=
  if binding.1 ∈ coarse then coarse
  else if binding.2.any (narrowableBinding coarse 32) then coarse
  else binding.1 :: coarse

/-- The rounds of `coarse_locals` until one changes nothing. -/
def coarseRounds (bindings : List (Text × Option Node)) : Nat → List Text → List Text
  | 0, coarse => coarse
  | fuel + 1, coarse =>
      let next := bindings.foldl coarsen coarse
      if next = coarse then coarse else coarseRounds bindings fuel next

/-- `coarse_locals`. -/
def coarseLocals (body : List Node) : List Text :=
  let bindings := (nodesList body false).flatMap fun entry => entry.2.bindings
  coarseRounds bindings (bindings.length + 1) []

theorem subset_coarsen (coarse : List Text) (binding : Text × Option Node) :
    coarse ⊆ coarsen coarse binding := by
  unfold coarsen
  split
  · exact List.Subset.refl coarse
  · split
    · exact List.Subset.refl coarse
    · exact List.subset_cons_self _ _

theorem subset_round (bindings : List (Text × Option Node)) (coarse : List Text) :
    coarse ⊆ bindings.foldl coarsen coarse := by
  induction bindings generalizing coarse with
  | nil => exact List.Subset.refl coarse
  | cons binding rest ih => exact List.Subset.trans (subset_coarsen coarse binding) (ih _)

theorem subset_coarseRounds (bindings : List (Text × Option Node)) (fuel : Nat)
    (coarse : List Text) : coarse ⊆ coarseRounds bindings fuel coarse := by
  induction fuel generalizing coarse with
  | zero => exact List.Subset.refl coarse
  | succ fuel ih =>
      simp only [coarseRounds]
      split
      · exact List.Subset.refl coarse
      · exact List.Subset.trans (subset_round bindings coarse) (ih _)

theorem mem_round_of_unvalued {bindings : List (Text × Option Node)} {name : Text}
    (mem : (name, none) ∈ bindings) (coarse : List Text) :
    name ∈ bindings.foldl coarsen coarse := by
  induction bindings generalizing coarse with
  | nil => nomatch mem
  | cons binding rest ih =>
      rcases List.mem_cons.mp mem with same | later
      · apply subset_round rest
        rw [← same, coarsen]
        split
        · assumption
        · exact List.mem_cons_self
      · exact ih later _

/-- A name that a clause or an operator assignment binds is coarse. -/
theorem mem_coarseLocals_of_unvalued {body : List Node} {entry : Bool × Node} {name : Text}
    (mem : entry ∈ nodesList body false) (bound : (name, none) ∈ entry.2.bindings) :
    name ∈ coarseLocals body := by
  have inBindings : (name, none) ∈
      (nodesList body false).flatMap fun entry => entry.2.bindings :=
    List.mem_flatMap.mpr ⟨entry, mem, bound⟩
  unfold coarseLocals
  simp only [coarseRounds]
  have found := mem_round_of_unvalued inBindings []
  split
  · rename_i same
    rwa [same] at found
  · exact subset_coarseRounds _ _ _ found

/-- A round that changes the set adds the name of a binding. -/
theorem exists_added {bindings : List (Text × Option Node)} {coarse : List Text}
    (changed : bindings.foldl coarsen coarse ≠ coarse) :
    ∃ binding ∈ bindings, binding.1 ∉ coarse ∧ binding.1 ∈ bindings.foldl coarsen coarse := by
  induction bindings generalizing coarse with
  | nil => exact absurd rfl changed
  | cons binding rest ih =>
      by_cases same : coarsen coarse binding = coarse
      · rw [List.foldl_cons, same] at changed ⊢
        rcases ih changed with ⟨added, mem, new, found⟩
        exact ⟨added, List.mem_cons_of_mem _ mem, new, found⟩
      · have new : binding.1 ∉ coarse ∧ coarsen coarse binding = binding.1 :: coarse := by
          unfold coarsen at same ⊢
          split at same
          · exact absurd rfl same
          · split at same
            · exact absurd rfl same
            · rename_i fresh rejected
              rw [if_neg fresh, if_neg rejected]
              exact ⟨fresh, rfl⟩
        refine ⟨binding, List.mem_cons_self, new.1, subset_round rest _ ?_⟩
        rw [new.2]
        exact List.mem_cons_self

/-- With a unit of fuel for each name still missing, the rounds end in a fixed point. -/
theorem coarseRounds_fixed {bindings : List (Text × Option Node)} {fuel : Nat}
    {coarse : List Text}
    (enough : ((bindings.map Prod.fst).toFinset \ coarse.toFinset).card < fuel) :
    bindings.foldl coarsen (coarseRounds bindings fuel coarse) =
      coarseRounds bindings fuel coarse := by
  induction fuel generalizing coarse with
  | zero => exact absurd enough (Nat.not_lt_zero _)
  | succ fuel ih =>
      simp only [coarseRounds]
      split
      · assumption
      · rename_i changed
        rcases exists_added changed with ⟨binding, mem, new, found⟩
        apply ih
        have fewer : (bindings.map Prod.fst).toFinset \ (bindings.foldl coarsen coarse).toFinset ⊂
            (bindings.map Prod.fst).toFinset \ coarse.toFinset := by
          constructor
          · apply Finset.sdiff_subset_sdiff (Finset.Subset.refl _)
            exact fun name inside =>
              List.mem_toFinset.mpr (subset_round bindings coarse (List.mem_toFinset.mp inside))
          · intro back
            have missing : binding.1 ∈ (bindings.map Prod.fst).toFinset \ coarse.toFinset := by
              simp only [Finset.mem_sdiff, List.mem_toFinset, List.mem_map]
              exact ⟨⟨binding, mem, rfl⟩, new⟩
            have absent := (Finset.mem_sdiff.mp (back missing)).2
            exact absent (List.mem_toFinset.mpr found)
        exact Nat.lt_of_lt_of_le (Finset.card_lt_card fewer) (Nat.le_of_lt_succ enough)

/-- `coarse_locals` ends when a round changes nothing. -/
theorem coarseLocals_fixed (body : List Node) :
    ((nodesList body false).flatMap fun entry => entry.2.bindings).foldl coarsen
      (coarseLocals body) = coarseLocals body := by
  unfold coarseLocals
  apply coarseRounds_fixed
  apply Nat.lt_succ_of_le
  rw [List.toFinset_nil, Finset.sdiff_empty]
  exact (List.toFinset_card_le _).trans (List.length_map _).le

end Rigor.Infer.Narrowing
