import Rigor.Infer.Source.Constants

/-!
# What a constant read binds to

Ruby's lexical lookup stops at the innermost scope that has a constant of the name, whatever the
gates did to it.  A folded read is right exactly if no nearer scope has one, and if the walk meets
every assignment of the constant that it folds.
-/

namespace Rigor.Infer.Source

open Rigor.Library
open Rigor.Library.Grouping

universe u

variable {FileKey : Type u}

section Program

variable (files : List (SourceFile FileKey))

/-- Everything that the project assigns or declares. -/
def projectFacts : List ConstFact :=
  files.flatMap fun file => constFacts [] file.root

/-- The assignments of the constant in the project. -/
def assignments (qualified : Path) : List ConstFact :=
  (projectFacts files).filter (·.assigns qualified)

/-- The project has the constant: a name that it assigns or declares is or goes through it. -/
def Introduces (qualified : Path) : Prop :=
  ∃ fact ∈ projectFacts files, qualified <+: fact.qualified

/-- The harvest walk meets every assignment of the constant. -/
def MeetsAll (qualified : Path) : Prop :=
  (located files qualified).length = (assignments files qualified).length

variable [DecidableEq FileKey]

/-- The entry is what the read binds to: the innermost scope that has the first name of the path is
the one that the entry's namespace starts from, and the constant has one assignment, of the
entry's literal. -/
def Binds (path usePrefix : Path) (entry : HarvestedConst FileKey) : Prop :=
  ∃ scope, Innermost (fun scope => Introduces files (scope ++ path.take 1)) usePrefix scope ∧
    entry.home = scope ++ path.dropLast ∧
    ∃ value, assignments files (scope ++ path) = [.assigned (scope ++ path) (some value)] ∧
      constLitOf value = some entry.lit.seed

/-- Whatever the lookups answer for a read is what the read binds to. -/
def ReadsBound (path usePrefix : Path) (useFile : FileKey) : Prop :=
  (∀ entry,
      literalConstantEntry (qualifiedLiteralConstants files) path usePrefix useFile = some entry →
        Binds files path usePrefix entry) ∧
    ∀ entry,
      qualifiedLiteralConstantEntry (qualifiedLiteralConstants files) path usePrefix useFile =
          some entry →
        Binds files path usePrefix entry

/-- The gates keep the constant, and the file is the one that assigns it. -/
def KeptIn (useFile : FileKey) (qualified : Path) : Prop :=
  ∃ entry, Kept files qualified entry ∧ entry.file = useFile

/-- The scope whose kept constant the read reaches: for a bare name the innermost one with a
constant kept in the file of the read, for a path the only one with a kept constant at all, if it
is kept in that file and its namespace is around the read. -/
def Reaches (path usePrefix : Path) (useFile : FileKey) (scope : Path) : Prop :=
  (path.length = 1 ∧
      Innermost (fun scope => KeptIn files useFile (scope ++ path)) usePrefix scope) ∨
    (2 ≤ path.length ∧ scope <+: usePrefix ∧ KeptIn files useFile (scope ++ path) ∧
      scope ++ path.dropLast <+: usePrefix ∧
      ∀ other, other <+: usePrefix → (∃ entry, Kept files (other ++ path) entry) → other = scope)

/-- No scope nearer than the one that the read reaches has a constant of the name, and the walk
meets every assignment of the constant that it reaches. -/
def Unshadowed (path usePrefix : Path) (useFile : FileKey) : Prop :=
  ∀ scope, Reaches files path usePrefix useFile scope →
    (∀ nearer, nearer <+: usePrefix → scope.length < nearer.length →
        ¬ Introduces files (nearer ++ path.take 1)) ∧
      MeetsAll files (scope ++ path)

end Program

/-! ## The assignments of a kept constant -/

section Assignments

variable (files : List (SourceFile FileKey))

/-- The located assignments are among the assignments of the program. -/
theorem located_sublist (qualified : Path) :
    ((located files qualified).map fun item => writeFact item.2).Sublist
      (assignments files qualified) := by
  induction files with
  | nil => exact List.Sublist.refl _
  | cons file files ih =>
      rw [located_cons, List.map_append, List.map_map, assignments, projectFacts,
        List.flatMap_cons, List.filter_append]
      refine List.Sublist.append ?_ ih
      have inFile := (writeFact_walkedWrites_sublist [] file.root).filter (·.assigns qualified)
      rwa [List.filter_map] at inFile

theorem located_qualified {qualified : Path} {item : SourceFile FileKey × Path × Text × Node}
    (member : item ∈ located files qualified) : item.2.1 ++ [item.2.2.1] = qualified := by
  rcases List.mem_flatMap.mp member with ⟨file, -, inFile⟩
  rcases List.mem_map.mp inFile with ⟨write, inWalked, rfl⟩
  exact beq_iff_eq.mp (List.mem_filter.mp inWalked).2

/-- A literal that a right-hand side spells is never the wrapped one. -/
theorem seed_constLitOf {node : Node} {lit : ConstLit} (spelled : constLitOf node = some lit) :
    lit.seed = lit := by
  match node with
  | .integerLit value =>
      rcases Option.map_eq_some_iff.mp spelled with ⟨value, -, rfl⟩
      rfl
  | .floatLit _ | .stringLit _ | .symbolLit _ | .trueLit | .falseLit | .nilLit | .range _ =>
      cases spelled
      rfl
  | .arrayLit elements =>
      rw [constLitOf] at spelled
      split at spelled <;> cases spelled <;> rfl
  | .hashLit elements allAssoc =>
      rw [constLitOf] at spelled
      split at spelled
      · split at spelled <;> cases spelled <;> rfl
      · cases spelled
        rfl
  | .call receiver method args blockBody =>
      rw [constLitOf] at spelled
      split at spelled
      · exact seed_constLitOf spelled
      · contradiction
  | .statements _ | .classDef _ _ | .moduleDef _ _ | .constantWrite _ _ | .other _ _ =>
      contradiction

theorem constLitOf_of_harvested {mutated : List Path} {qualified : Path} {value : Node}
    {lit : ConstLit} (harvested : harvestedLit mutated qualified value = some lit) :
    constLitOf value = some lit.seed := by
  rw [harvestedLit] at harvested
  split at harvested
  · contradiction
  · rcases Option.map_eq_some_iff.mp harvested with ⟨seed, spelled, rfl⟩
    rw [spelled, widenIfMutated]
    split
    · rfl
    · rw [seed_constLitOf spelled]

/-- The namespace of a kept constant is its qualified name without the last segment. -/
theorem Kept.home_append {qualified : Path} {entry : HarvestedConst FileKey}
    (kept : Kept files qualified entry) : ∃ name, qualified = entry.home ++ [name] := by
  rcases kept.single with ⟨file, write, all, homeEq, -, -⟩
  have member : (file, write) ∈ located files qualified := by
    rw [all]
    exact List.mem_singleton_self _
  exact ⟨write.2.1, homeEq ▸ (located_qualified files member).symm⟩

theorem Kept.home_eq {scope path : Path} {entry : HarvestedConst FileKey}
    (kept : Kept files (scope ++ path) entry) (named : path ≠ []) :
    entry.home = scope ++ path.dropLast := by
  rcases kept.home_append with ⟨name, split⟩
  have dropped := congrArg List.dropLast split
  rwa [List.dropLast_append_of_ne_nil named, List.dropLast_concat, eq_comm] at dropped

theorem Kept.introduces {scope path : Path} {entry : HarvestedConst FileKey}
    (kept : Kept files (scope ++ path) entry) : Introduces files (scope ++ path.take 1) := by
  rcases kept.single with ⟨file, write, all, -, -, -⟩
  have member : writeFact write ∈ assignments files (scope ++ path) := by
    apply (located_sublist files (scope ++ path)).subset
    rw [all]
    exact List.mem_singleton_self _
  have assigned := List.mem_filter.mp member
  have sameName : (writeFact write).qualified = scope ++ path :=
    beq_iff_eq.mp assigned.2
  refine ⟨writeFact write, assigned.1, ?_⟩
  rw [sameName]
  exact (List.prefix_append_right_inj scope).mpr (List.take_prefix 1 path)

/-- A kept constant has one assignment, of its literal, exactly if the walk meets all of them. -/
theorem Kept.assignments_iff {qualified : Path} {entry : HarvestedConst FileKey}
    (kept : Kept files qualified entry) :
    (∃ value, assignments files qualified = [.assigned qualified (some value)] ∧
        constLitOf value = some entry.lit.seed) ↔ MeetsAll files qualified := by
  rcases kept.single with ⟨file, write, all, -, -, harvested⟩
  have sublist := located_sublist files qualified
  rw [all, List.map_singleton] at sublist
  have member : (file, write) ∈ located files qualified := by
    rw [all]
    exact List.mem_singleton_self _
  have named : write.1 ++ [write.2.1] = qualified := located_qualified files member
  rw [MeetsAll, all, List.length_singleton]
  constructor
  · rintro ⟨value, single, -⟩
    rw [single, List.length_singleton]
  · intro met
    have same := sublist.eq_of_length (by rw [List.length_singleton, met])
    refine ⟨write.2.2, ?_, constLitOf_of_harvested harvested⟩
    rw [← same, writeFact, named]

end Assignments

/-! ## The answers of the lookups -/

section Answers

variable (files : List (SourceFile FileKey))

theorem mem_literalConstants {name : Path} {entry : HarvestedConst FileKey} :
    entry ∈ literalConstants (qualifiedLiteralConstants files) name ↔
      ∃ qualified, Kept files qualified entry ∧ bareName qualified = name := by
  rw [literalConstants, List.mem_map]
  constructor
  · rintro ⟨⟨qualified, kept⟩, member, rfl⟩
    rw [List.mem_filter, mem_iff_lookup (nodup_qualifiedLiteralConstants files),
      lookup_qualifiedLiteralConstants] at member
    exact ⟨qualified, member.1, beq_iff_eq.mp member.2⟩
  · rintro ⟨qualified, kept, bare⟩
    refine ⟨(qualified, entry), ?_, rfl⟩
    rw [List.mem_filter, mem_iff_lookup (nodup_qualifiedLiteralConstants files),
      lookup_qualifiedLiteralConstants]
    exact ⟨kept, beq_iff_eq.mpr bare⟩

/-- A kept constant answers to its bare name, in its own namespace. -/
theorem mem_literalConstants_iff {name : Path} {entry : HarvestedConst FileKey} :
    entry ∈ literalConstants (qualifiedLiteralConstants files) name ↔
      name.length = 1 ∧ Kept files (entry.home ++ name) entry := by
  rw [mem_literalConstants]
  constructor
  · rintro ⟨qualified, kept, rfl⟩
    rcases kept.home_append with ⟨last, split⟩
    have bare : bareName qualified = [last] := by
      rw [bareName, split, List.getLastD_concat]
    rw [bare, ← split]
    exact ⟨rfl, kept⟩
  · rintro ⟨single, kept⟩
    rcases List.length_eq_one_iff.mp single with ⟨last, rfl⟩
    exact ⟨entry.home ++ [last], kept, by rw [bareName, List.getLastD_concat]⟩

theorem Kept.home_of_single {scope name : Path} {entry : HarvestedConst FileKey}
    (kept : Kept files (scope ++ name) entry) (single : name.length = 1) : entry.home = scope := by
  rcases List.length_eq_one_iff.mp single with ⟨segment, rfl⟩
  rw [kept.home_eq files (List.cons_ne_nil _ _), List.dropLast_singleton, List.append_nil]

theorem Kept.unique {qualified : Path} {first second : HarvestedConst FileKey}
    (one : Kept files qualified first) (two : Kept files qualified second) : first = second := by
  rw [← lookup_qualifiedLiteralConstants] at one two
  exact Option.some.inj (one.symm.trans two)

theorem not_kept_of_lookup {qualified : Path}
    (missing : (qualifiedLiteralConstants files).lookup qualified = none) :
    ¬ ∃ found, Kept files qualified found := by
  rintro ⟨found, kept⟩
  rw [← lookup_qualifiedLiteralConstants, missing] at kept
  contradiction

/-- Behind a hit no other candidate may name a kept constant. -/
theorem candidateHit_of_hit (keys : List Path) (key previous : Path)
    (entry stored : HarvestedConst FileKey) :
    candidateHit (qualifiedLiteralConstants files) keys (some (previous, stored)) =
        some (key, entry) ↔
      previous = key ∧ stored = entry ∧
        ∀ other ∈ keys, (∃ found, Kept files other found) → other = key := by
  induction keys generalizing previous stored with
  | nil => simp [candidateHit]
  | cons next rest ih =>
      rw [candidateHit, List.forall_mem_cons]
      cases looked : (qualifiedLiteralConstants files).lookup next with
      | none => simp [ih, not_kept_of_lookup files looked]
      | some found =>
          have isKept : ∃ found, Kept files next found :=
            ⟨found, (lookup_qualifiedLiteralConstants files next found).mp looked⟩
          by_cases same : previous = next
          · simp only [same, if_pos, ih, isKept, true_implies]
            tauto
          · simp only [same, if_false, reduceCtorEq, isKept, true_implies, false_iff]
            rintro ⟨rfl, -, rfl, -⟩
            exact same rfl

/-- The loop answers the only candidate that names a kept constant. -/
theorem candidateHit_eq_some_iff (keys : List Path) (key : Path)
    (entry : HarvestedConst FileKey) :
    candidateHit (qualifiedLiteralConstants files) keys none = some (key, entry) ↔
      key ∈ keys ∧ Kept files key entry ∧
        ∀ other ∈ keys, (∃ found, Kept files other found) → other = key := by
  induction keys with
  | nil => simp [candidateHit]
  | cons next rest ih =>
      rw [candidateHit, List.forall_mem_cons]
      cases looked : (qualifiedLiteralConstants files).lookup next with
      | none =>
          have dropped := not_kept_of_lookup files looked
          have notNext : Kept files key entry → key ≠ next := by
            rintro kept rfl
            exact dropped ⟨entry, kept⟩
          simp only [ih, List.mem_cons, dropped, false_implies, true_and]
          constructor
          · rintro ⟨member, kept, only⟩
            exact ⟨.inr member, kept, only⟩
          · rintro ⟨member, kept, only⟩
            exact ⟨member.resolve_left (notNext kept), kept, only⟩
      | some found =>
          have isKept : Kept files next found :=
            (lookup_qualifiedLiteralConstants files next found).mp looked
          simp only [candidateHit_of_hit, List.mem_cons]
          constructor
          · rintro ⟨rfl, rfl, only⟩
            exact ⟨.inl rfl, isKept, fun _ => rfl, only⟩
          · rintro ⟨-, kept, onlyNext, only⟩
            have same : next = key := onlyNext ⟨found, isKept⟩
            subst same
            exact ⟨rfl, isKept.unique files kept, only⟩

variable [DecidableEq FileKey]

theorem mem_visible_iff {name usePrefix : Path} {useFile : FileKey}
    {entry : HarvestedConst FileKey} :
    entry ∈ ((literalConstants (qualifiedLiteralConstants files) name).filter
        (·.file == useFile)).filter (fun entry => entry.home.isPrefixOf usePrefix) ↔
      name.length = 1 ∧ Kept files (entry.home ++ name) entry ∧ entry.file = useFile ∧
        entry.home <+: usePrefix := by
  rw [List.mem_filter, List.mem_filter, mem_literalConstants_iff, beq_iff_eq,
    List.isPrefixOf_iff_prefix, and_assoc, and_assoc]

/-- A bare read answers from the innermost scope that has a constant kept in its file. -/
theorem innermost_of_literalConstantEntry {name usePrefix : Path} {useFile : FileKey}
    {entry : HarvestedConst FileKey}
    (found : literalConstantEntry (qualifiedLiteralConstants files) name usePrefix useFile =
      some entry) :
    name.length = 1 ∧ Kept files (entry.home ++ name) entry ∧
      Innermost (fun scope => KeptIn files useFile (scope ++ name)) usePrefix entry.home := by
  rcases lastMaxBy_spec found with ⟨member, longest⟩
  rcases (mem_visible_iff files).mp member with ⟨single, kept, sameFile, encloses⟩
  refine ⟨single, kept, encloses, ⟨entry, kept, sameFile⟩, ?_⟩
  rintro nearer nearerEncloses longer ⟨other, otherKept, otherFile⟩
  have home : other.home = nearer := otherKept.home_of_single files single
  subst home
  exact Nat.not_lt.mpr
    (longest other ((mem_visible_iff files).mpr ⟨single, otherKept, otherFile, nearerEncloses⟩))
    longer

theorem literalConstantEntry_of_innermost {name usePrefix scope : Path} {useFile : FileKey}
    (single : name.length = 1)
    (innermost : Innermost (fun scope => KeptIn files useFile (scope ++ name)) usePrefix scope) :
    ∃ entry,
      literalConstantEntry (qualifiedLiteralConstants files) name usePrefix useFile = some entry ∧
        entry.home = scope := by
  rcases innermost.answers with ⟨kept, isKept, sameFile⟩
  have home : kept.home = scope := isKept.home_of_single files single
  have encloses : kept.home <+: usePrefix := home.symm ▸ innermost.encloses
  have member := (mem_visible_iff files).mpr ⟨single, home.symm ▸ isKept, sameFile, encloses⟩
  cases found : literalConstantEntry (qualifiedLiteralConstants files) name usePrefix useFile with
  | none =>
      rw [lastMaxBy_eq_none_iff.mp found] at member
      contradiction
  | some entry =>
      exact ⟨entry, rfl, (innermost_of_literalConstantEntry files found).2.2.unique innermost⟩

/-- A path answers from the only scope with a kept constant. -/
theorem qualifiedLiteralConstantEntry_eq_some_iff {name usePrefix : Path} {useFile : FileKey}
    {entry : HarvestedConst FileKey} :
    qualifiedLiteralConstantEntry (qualifiedLiteralConstants files) name usePrefix useFile =
        some entry ↔
      2 ≤ name.length ∧ ∃ scope, scope <+: usePrefix ∧ Kept files (scope ++ name) entry ∧
        entry.file = useFile ∧ entry.home <+: usePrefix ∧
        ∀ other, other <+: usePrefix → (∃ found, Kept files (other ++ name) found) →
          other = scope := by
  have candidates : ∀ key,
      key ∈ ((List.range (usePrefix.length + 1)).map usePrefix.take).map (· ++ name) ↔
        ∃ scope, scope <+: usePrefix ∧ scope ++ name = key := by
    intro key
    simp only [List.mem_map (f := (· ++ name)), mem_inits_iff]
  rw [qualifiedLiteralConstantEntry]
  by_cases short : name.length < 2
  · have notLong : ¬ 2 ≤ name.length := by omega
    simp [short, notLong]
  · have long : 2 ≤ name.length := by omega
    simp only [short, if_false, long, true_and]
    constructor
    · intro found
      split at found
      · contradiction
      next key held hit =>
          rcases (candidateHit_eq_some_iff files _ _ _).mp hit with ⟨member, kept, only⟩
          rcases (candidates key).mp member with ⟨scope, encloses, rfl⟩
          split at found
          next visible =>
              cases found
              refine ⟨scope, encloses, kept, visible.1,
                List.isPrefixOf_iff_prefix.mp visible.2, ?_⟩
              intro other otherEncloses otherKept
              have same : other ++ name = scope ++ name :=
                only _ ((candidates _).mpr ⟨other, otherEncloses, rfl⟩) otherKept
              exact List.append_cancel_right same
          · contradiction
    · rintro ⟨scope, encloses, kept, sameFile, visible, only⟩
      have hit := (candidateHit_eq_some_iff files
        (((List.range (usePrefix.length + 1)).map usePrefix.take).map (· ++ name))
        (scope ++ name) entry).mpr ⟨(candidates _).mpr ⟨scope, encloses, rfl⟩, kept, by
          rintro key member otherKept
          rcases (candidates key).mp member with ⟨other, otherEncloses, rfl⟩
          rw [only other otherEncloses otherKept]⟩
      rw [hit]
      exact if_pos ⟨sameFile, List.isPrefixOf_iff_prefix.mpr visible⟩

end Answers

/-! ## Soundness of the reads -/

section Soundness

variable (files : List (SourceFile FileKey))

/-- A kept constant is what a read around it binds to exactly if no nearer scope has one and the
walk meets its assignments. -/
theorem binds_iff {path usePrefix scope : Path} {entry : HarvestedConst FileKey}
    (encloses : scope <+: usePrefix) (named : path ≠ []) (kept : Kept files (scope ++ path) entry) :
    Binds files path usePrefix entry ↔
      (∀ nearer, nearer <+: usePrefix → scope.length < nearer.length →
        ¬ Introduces files (nearer ++ path.take 1)) ∧ MeetsAll files (scope ++ path) := by
  constructor
  · rintro ⟨bound, innermost, home, single⟩
    have same : bound = scope :=
      List.append_cancel_right (home.symm.trans (kept.home_eq files named))
    subst same
    exact ⟨innermost.nearest, (kept.assignments_iff files).mp single⟩
  · rintro ⟨unshadowed, met⟩
    exact ⟨scope, ⟨encloses, kept.introduces files, unshadowed⟩, kept.home_eq files named,
      (kept.assignments_iff files).mpr met⟩

variable [DecidableEq FileKey]

/-- The lookups answer what Ruby reads exactly if no constant that the gates drop is nearer, and no
assignment of the constant that they reach is out of the harvest's sight. -/
theorem readsBound_iff (path usePrefix : Path) (useFile : FileKey) :
    ReadsBound files path usePrefix useFile ↔ Unshadowed files path usePrefix useFile := by
  constructor
  · rintro ⟨bare, qualified⟩ scope reached
    rcases reached with ⟨single, innermost⟩ | ⟨long, encloses, ⟨entry, kept, sameFile⟩, around, only⟩
    · rcases literalConstantEntry_of_innermost files single innermost with ⟨entry, found, rfl⟩
      have named : path ≠ [] := by
        rintro rfl
        contradiction
      rcases innermost_of_literalConstantEntry files found with ⟨-, kept, -⟩
      exact (binds_iff files innermost.encloses named kept).mp (bare entry found)
    · have named : path ≠ [] := by
        rintro rfl
        contradiction
      rw [← kept.home_eq files named] at around
      exact (binds_iff files encloses named kept).mp
        (qualified entry ((qualifiedLiteralConstantEntry_eq_some_iff files).mpr
          ⟨long, scope, encloses, kept, sameFile, around, only⟩))
  · intro unshadowed
    constructor
    · intro entry found
      rcases innermost_of_literalConstantEntry files found with ⟨single, kept, innermost⟩
      have named : path ≠ [] := by
        rintro rfl
        contradiction
      exact (binds_iff files innermost.encloses named kept).mpr
        (unshadowed entry.home (.inl ⟨single, innermost⟩))
    · intro entry found
      rcases (qualifiedLiteralConstantEntry_eq_some_iff files).mp found with
        ⟨long, scope, encloses, kept, sameFile, around, only⟩
      have named : path ≠ [] := by
        rintro rfl
        contradiction
      rw [kept.home_eq files named] at around
      exact (binds_iff files encloses named kept).mpr
        (unshadowed scope (.inr ⟨long, encloses, ⟨entry, kept, sameFile⟩, around, only⟩))

/-- `X = 1; class C; X = compute; X; end`: the inner constant is dropped, the outer one answers. -/
theorem not_readsBound_dropped :
    ¬ ReadsBound
      [(⟨"a.rb".toList, .statements [.constantWrite "X".toList (.integerLit (some 1)),
        .classDef ["C".toList] [.constantWrite "X".toList (.other [] [])]], []⟩ : SourceFile Text)]
      ["X".toList] ["C".toList] "a.rb".toList := by
  rintro ⟨bare, -⟩
  rcases bare ⟨[], "a.rb".toList, .scalar (.int 1)⟩ rfl with ⟨scope, innermost, home, -⟩
  have outermost : scope = [] := by simpa using home.symm
  subst outermost
  apply innermost.nearest ["C".toList] List.prefix_rfl Nat.zero_lt_one
  exact ⟨.assigned ["C".toList, "X".toList] (some (.other [] [])), by
    simp [projectFacts, constFacts, constFactsAll], List.prefix_rfl⟩

end Soundness

end Rigor.Infer.Source
