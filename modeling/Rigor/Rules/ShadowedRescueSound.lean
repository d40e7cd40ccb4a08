import Rigor.Library.Grouping
import Rigor.Rules.ShadowedRescue

/-!
# Soundness of the shadowed rescue rule

A report says that a clause can never run.  The classes of a program are given by a table, and
the constants of its `rescue` clauses are resolved there by the rule of Ruby.
-/

namespace Rigor.Rules

open Library

/-- The class hierarchy of a running program. -/
structure World where
  table : ClassTable Text
  /-- The scopes in which the header of a class stands, innermost first. -/
  sites : ConstPath → List ConstPath
  /-- The classes a designator evaluates to when it is not a constant. -/
  dynamic : NodeId → List ConstPath

/-- The indexes tell the truth about the classes of a program. -/
structure Truthful (world : World) (index : CoreIndex) (sourceIndex : SourceIndex) : Prop where
  known (name : ConstPath) :
    knownName index sourceIndex name = true ↔ world.table.defined name = true
  isModule (name : ConstPath) : index.knowsClass name = true →
    index.isModule name = world.table.isModule name
  equal {a b : ConstPath} : index.classOrdering a b = .equal →
    b ∈ world.table.ancestors a ∧ a ∈ world.table.ancestors b
  subclass {a b : ConstPath} : index.classOrdering a b = .subclass → b ∈ world.table.ancestors a
  superclass {a b : ConstPath} :
    index.classOrdering a b = .superclass → a ∈ world.table.ancestors b
  disjoint {a b : ConstPath} : index.classOrdering a b = .disjoint →
    b ∉ world.table.ancestors a ∧ a ∉ world.table.ancestors b
  /-- The header of the class stands at its site and writes that superclass. -/
  discovered {c parent : ConstPath} : sourceIndex.discoveredSuperclass c = some parent →
    world.table.isModule c = false ∧
      ∃ super, world.table.resolve (world.sites c) parent = some super ∧
        super ∈ world.table.ancestors c

section Meaning

variable (world : World) (ast : LoweredAst) (text : Text) (nest : List ConstPath)

def rootedAt (span : Span) : Bool :=
  ("::".toList).isPrefixOf (rawSlice text span)

/-- The classes a designator evaluates to; none if it raises `NameError`. -/
def designated (exc : NodeId) : Option (List ConstPath) :=
  match ast.get exc with
  | .constantRead name span false =>
      (world.table.resolve (if rootedAt text span then [] else nest) name).map fun c => [c]
  | _ => some (world.dynamic exc)

/-- The clause names a class that is an ancestor of the class of the exception. -/
def Matches (clause : RescueClause) (exception : ConstPath) : Prop :=
  if clause.exceptions = [] then implicitRescueClass ∈ world.table.ancestors exception
  else
    ∃ exc ∈ clause.exceptions, ∃ c ∈ (designated world ast text nest exc).getD [],
      c ∈ world.table.ancestors exception

instance (clause : RescueClause) (exception : ConstPath) :
    Decidable (Matches world ast text nest clause exception) := by
  unfold Matches
  infer_instance

/-- Every exception that reaches the clause and matches it is matched by an earlier clause.  None
reaches it when an earlier clause raises `NameError`. -/
def Shadowed (clauses : List RescueClause) (idx : Nat) : Prop :=
  (∀ earlier ∈ clauses.take idx, ∀ exc ∈ earlier.exceptions,
    designated world ast text nest exc ≠ none) →
  ∀ clause, clauses[idx]? = some clause →
    ∀ exception, Matches world ast text nest clause exception →
      ∃ earlier ∈ clauses.take idx, Matches world ast text nest earlier exception

end Meaning

/-- `check_shadowed` reports the clause at `idx` of the chain. -/
def Reports (ast : LoweredAst) (index : CoreIndex) (sourceIndex : SourceIndex) (text : Text)
    (clauses : List RescueClause) (span : Span) (idx : Nat) : Prop :=
  let infos := clauseInfos ast index sourceIndex text clauses span
  ∃ info severity diagnostic, infos[idx]? = some (some info) ∧
    checkShadowed ast index sourceIndex text (lineStartsOf text) severity info (infos.take idx) =
      some diagnostic

/-- A report on a chain of the file is right in the scopes its headers open. -/
def ReportSound (world : World) (ast : LoweredAst) (index : CoreIndex) (sourceIndex : SourceIndex)
    (text : Text) (clauses : List RescueClause) (span : Span) (idx : Nat) : Prop :=
  Reports ast index sourceIndex text clauses span idx →
    ∀ nest, world.table.nesting (enclosingHeaders ast span) = some nest →
      Shadowed world ast text nest clauses idx

/-- The namespaces of a class, longest first. -/
def namespaces (c : ConstPath) : List ConstPath :=
  (List.range' 1 (c.length - 1)).reverse.map (c.take ·)

/-- The header of a class stands in the namespaces of its name, and its superclass is not found in
an ancestor. -/
def SuperclassesDirect (world : World) (sourceIndex : SourceIndex) : Prop :=
  ∀ {c parent : ConstPath}, sourceIndex.discoveredSuperclass c = some parent →
    world.sites c = namespaces c ∧
      world.table.resolve (world.sites c) parent =
        world.table.resolveDirect (world.sites c) parent

/-- The constants of the chain and the superclasses are found where the code looks for them. -/
structure FoundLexically (world : World) (ast : LoweredAst) (sourceIndex : SourceIndex)
    (text : Text) (nest : List ConstPath) (clauses : List RescueClause) (span : Span) : Prop where
  /-- Every header around the chain names its class inside the scope around it. -/
  nested : nest = scopesOf (enclosingPrefix ast span)
  static {clause : RescueClause} {exc : NodeId} {name : ConstPath} {written : Span}
    {dynamicBase : Bool} : clause ∈ clauses → exc ∈ clause.exceptions →
    ast.get exc = .constantRead name written dynamicBase → dynamicBase = false
  /-- No constant is found in an ancestor. -/
  direct {clause : RescueClause} {exc : NodeId} {name : ConstPath} {written : Span} :
    clause ∈ clauses → exc ∈ clause.exceptions → ast.get exc = .constantRead name written false →
    world.table.resolve (if rootedAt text written then [] else nest) name =
      world.table.resolveDirect (if rootedAt text written then [] else nest) name
  superclasses : SuperclassesDirect world sourceIndex

/-! ## Coverage -/

section Coverage

variable {world : World} {index : CoreIndex} {sourceIndex : SourceIndex}

theorem Truthful.knownName_eq (truthful : Truthful world index sourceIndex) :
    knownName index sourceIndex = world.table.defined := by
  funext name
  exact Bool.eq_iff_iff.mpr (truthful.known name)

/-- The parent the walk takes is a superclass. -/
theorem resolveParent_mem (truthful : Truthful world index sourceIndex)
    (superclasses : SuperclassesDirect world sourceIndex)
    {c parent : ConstPath} (discovered : sourceIndex.discoveredSuperclass c = some parent) :
    resolveParent index sourceIndex c parent ∈ world.table.ancestors c := by
  obtain ⟨_, super, resolved, ancestor⟩ := truthful.discovered discovered
  obtain ⟨site, direct⟩ := superclasses discovered
  rw [direct, site] at resolved
  obtain ⟨same, _⟩ := ClassTable.candidate_of_resolveDirect resolved
  have walked : resolveParent index sourceIndex c parent = super := by
    rw [← same, resolveParent, truthful.knownName_eq, ClassTable.candidates, namespaces,
      List.map_map]
    rfl
  rwa [walked]

/-- The walk stays among the ancestors of the class it starts at. -/
theorem chainWalk_sound (truthful : Truthful world index sourceIndex)
    (superclasses : SuperclassesDirect world sourceIndex)
    {earlier later : ConstPath} {limit : Nat} {current : ConstPath} {seen : List ConstPath}
    (reached : current ∈ world.table.ancestors later)
    (covered : chainWalk index sourceIndex earlier limit current seen = true) :
    earlier ∈ world.table.ancestors later := by
  induction limit generalizing current seen with
  | zero => simp [chainWalk] at covered
  | succ limit inductionHypothesis =>
      rw [chainWalk] at covered
      cases discovered : sourceIndex.discoveredSuperclass current with
      | none => simp [discovered] at covered
      | some parent =>
          have next : resolveParent index sourceIndex current parent ∈
              world.table.ancestors later :=
            world.table.trans reached (resolveParent_mem truthful superclasses discovered)
          simp only [discovered] at covered
          split at covered
          · exact absurd covered Bool.false_ne_true
          · split at covered
            case isTrue same => rwa [← same]
            case isFalse =>
                cases ordering : index.classOrdering
                    (resolveParent index sourceIndex current parent) earlier with
                | equal => exact world.table.trans next (truthful.equal ordering).1
                | subclass => exact world.table.trans next (truthful.subclass ordering)
                | unknown =>
                    rw [ordering] at covered
                    exact inductionHypothesis next covered
                | superclass => simp [ordering] at covered
                | disjoint => simp [ordering] at covered

theorem coveredBy_sound (truthful : Truthful world index sourceIndex)
    (superclasses : SuperclassesDirect world sourceIndex)
    {earlier later : ConstPath} (covered : coveredBy index sourceIndex later earlier = true) :
    earlier ∈ world.table.ancestors later := by
  unfold coveredBy at covered
  split at covered
  case isTrue same =>
      rw [← same]
      exact world.table.self_mem later
  case isFalse =>
      cases ordering : index.classOrdering later earlier with
      | equal => exact (truthful.equal ordering).1
      | subclass => exact truthful.subclass ordering
      | unknown =>
          rw [ordering] at covered
          exact chainWalk_sound truthful superclasses (world.table.self_mem later) covered
      | superclass => simp [ordering] at covered
      | disjoint => simp [ordering] at covered

/-- The declared classes the walk has not seen. -/
def unseen (sourceIndex : SourceIndex) (seen : List ConstPath) : Nat :=
  sourceIndex.classes.countP fun (c, _) => !decide (c ∈ seen)

theorem unseen_append_lt {seen : List ConstPath} {c parent : ConstPath}
    (discovered : sourceIndex.discoveredSuperclass c = some parent) (fresh : c ∉ seen) :
    unseen sourceIndex (seen ++ [c]) < unseen sourceIndex seen := by
  obtain ⟨entry, found, _⟩ := Option.bind_eq_some_iff.mp discovered
  refine Grouping.countP_lt_countP ?_ (Grouping.mem_of_lookup found) (by simpa using fresh) (by simp)
  intro item _ outside
  simp only [List.mem_append, Bool.not_eq_true', decide_eq_false_iff_not, not_or] at outside ⊢
  exact outside.1

/-- Two limits agree if they agree on the rest of the walk. -/
theorem chainWalk_succ_congr {earlier current : ConstPath} {seen : List ConstPath} {m n : Nat}
    (rest : ∀ parent, resolveParent index sourceIndex current parent ∉ seen →
      chainWalk index sourceIndex earlier m (resolveParent index sourceIndex current parent)
          (seen ++ [resolveParent index sourceIndex current parent]) =
        chainWalk index sourceIndex earlier n (resolveParent index sourceIndex current parent)
          (seen ++ [resolveParent index sourceIndex current parent])) :
    chainWalk index sourceIndex earlier (m + 1) current seen =
      chainWalk index sourceIndex earlier (n + 1) current seen := by
  simp only [chainWalk]
  cases sourceIndex.discoveredSuperclass current with
  | none => rfl
  | some parent =>
      by_cases known : resolveParent index sourceIndex current parent ∈ seen
      · simp only [known, if_true]
      · simp only [known, if_false, rest parent known]

/-- The walk ends by itself: every turn but the last two sees a declared class it has not seen,
whatever cycles the declarations have. -/
theorem chainWalk_limit {earlier : ConstPath} {n : Nat} {current : ConstPath}
    {seen : List ConstPath} (bound : unseen sourceIndex seen ≤ n) (k : Nat) :
    chainWalk index sourceIndex earlier (n + 2 + k) current seen =
      chainWalk index sourceIndex earlier (n + 2) current seen := by
  rw [show n + 2 + k = n + 1 + k + 1 by omega]
  refine chainWalk_succ_congr fun parent fresh => ?_
  cases discovered : sourceIndex.discoveredSuperclass
      (resolveParent index sourceIndex current parent) with
  | none =>
      rw [Nat.add_right_comm]
      simp [chainWalk, discovered]
  | some grandparent =>
      have fewer := unseen_append_lt discovered fresh
      obtain ⟨m, rfl⟩ := Nat.exists_eq_succ_of_ne_zero (n := n) (by omega)
      exact chainWalk_limit (by omega) k
termination_by n

end Coverage

/-! ## Constants -/

section Constants

variable {world : World} {ast : LoweredAst} {index : CoreIndex} {sourceIndex : SourceIndex}
  {text : Text} {nest : List ConstPath} {enclosing : List ConstPath}

/-- Where no ancestor is needed the code resolves a constant as Ruby does. -/
theorem resolveConstant_eq (truthful : Truthful world index sourceIndex)
    (nested : nest = scopesOf enclosing) {exc : NodeId} {name found : ConstPath} {written : Span}
    (read : ast.get exc = .constantRead name written false)
    (resolved : world.table.resolveDirect (if rootedAt text written then [] else nest) name =
      some found) :
    resolveConstant ast index sourceIndex text exc enclosing = some found := by
  have nonempty : name ≠ [] := by
    rintro rfl
    simp [ClassTable.resolveDirect] at resolved
  obtain ⟨same, defined⟩ := ClassTable.candidate_of_resolveDirect resolved
  simp only [resolveConstant, read, nonempty, if_false, truthful.knownName_eq]
  unfold rootedAt at same
  split
  case isTrue rooted =>
      rw [if_pos rooted] at same
      obtain rfl : name = found := by simpa [ClassTable.candidates] using same
      simp [defined]
  case isFalse unrooted =>
      rw [if_neg unrooted, nested, ClassTable.candidates] at same
      cases first : ((scopesOf enclosing).map (· ++ name)).find? world.table.defined with
      | some candidate => simpa [first] using same
      | none =>
          obtain rfl : name = found := by simpa [first] using same
          simp [defined]

theorem constantRead_of_resolveConstant {exc : NodeId} {name : ConstPath}
    (resolved : resolveConstant ast index sourceIndex text exc enclosing = some name) :
    ∃ path span dynamicBase, ast.get exc = .constantRead path span dynamicBase := by
  unfold resolveConstant at resolved
  split at resolved
  next path span dynamicBase read => exact ⟨path, span, dynamicBase, read⟩
  next => exact absurd resolved (by simp)

/-- The results of a mapping that answers everywhere are the answers. -/
theorem mem_of_mapM {α β : Type} {f : α → Option β} {values : List α} {results : List β}
    (accepted : values.mapM f = some results) :
    (∀ value ∈ values, ∃ result ∈ results, f value = some result) ∧
      ∀ result ∈ results, ∃ value ∈ values, f value = some result := by
  induction values generalizing results with
  | nil =>
      obtain rfl : [] = results := by simpa using accepted
      exact ⟨by simp, by simp⟩
  | cons value values inductionHypothesis =>
      rw [List.mapM_cons] at accepted
      obtain ⟨first, atFirst, accepted⟩ := Option.bind_eq_some_iff.mp accepted
      obtain ⟨rest, atRest, accepted⟩ := Option.bind_eq_some_iff.mp accepted
      obtain rfl : first :: rest = results := by simpa using accepted
      obtain ⟨answered, asked⟩ := inductionHypothesis atRest
      constructor
      · rintro other (_ | ⟨_, member⟩)
        · exact ⟨first, List.mem_cons_self, atFirst⟩
        · obtain ⟨result, memberRest, atOther⟩ := answered other member
          exact ⟨result, List.mem_cons_of_mem _ memberRest, atOther⟩
      · rintro result (_ | ⟨_, member⟩)
        · exact ⟨value, List.mem_cons_self, atFirst⟩
        · obtain ⟨other, memberValues, atOther⟩ := asked result member
          exact ⟨other, List.mem_cons_of_mem _ memberValues, atOther⟩

/-- What a certified clause names. -/
theorem clauseInfo_cases {position : Nat} {clause : RescueClause} {info : ClauseInfo}
    (certified : clauseInfo ast index sourceIndex text position clause enclosing = some info) :
    info.clause = clause ∧
      (clause.exceptions = [] ∧ info.names = [implicitRescueClass] ∨
        clause.exceptions ≠ [] ∧
          (∀ exc ∈ clause.exceptions, ∃ name ∈ info.names,
            resolveConstant ast index sourceIndex text exc enclosing = some name) ∧
          ∀ name ∈ info.names, ∃ exc ∈ clause.exceptions,
            resolveConstant ast index sourceIndex text exc enclosing = some name) := by
  unfold clauseInfo at certified
  split at certified
  case isTrue bare =>
      split at certified
      · obtain rfl := Option.some.inj certified
        exact ⟨rfl, .inl ⟨bare, rfl⟩⟩
      · exact absurd certified (by simp)
  case isFalse listed =>
      obtain ⟨names, accepted, rfl⟩ := Option.map_eq_some_iff.mp certified
      obtain ⟨answered, asked⟩ := mem_of_mapM accepted
      refine ⟨rfl, .inr ⟨listed, fun exc member => ?_, fun name member => ?_⟩⟩
      · obtain ⟨name, memberNames, resolved⟩ := answered exc member
        exact ⟨name, memberNames, (Option.filter_eq_some_iff.mp resolved).1⟩
      · obtain ⟨exc, memberExc, resolved⟩ := asked name member
        exact ⟨exc, memberExc, (Option.filter_eq_some_iff.mp resolved).1⟩

end Constants

/-! ## Reports -/

section Reports

variable {ast : LoweredAst} {index : CoreIndex} {sourceIndex : SourceIndex} {text : Text}

theorem mapM_isSome_iff {α β : Type} {f : α → Option β} {values : List α} :
    (values.mapM f).isSome = true ↔ ∀ value ∈ values, (f value).isSome = true := by
  induction values with
  | nil => simp
  | cons value values inductionHypothesis =>
      rw [List.forall_mem_cons, ← inductionHypothesis, List.mapM_cons]
      cases f value <;> cases values.mapM f <;> simp

/-- A report needs an earlier covering class for every name of the clause. -/
theorem checkShadowed_isSome_iff {lineStarts : List Nat} {severity : Severity} {info : ClauseInfo}
    {earlier : List (Option ClauseInfo)} :
    (checkShadowed ast index sourceIndex text lineStarts severity info earlier).isSome = true ↔
      earlier.filterMap id ≠ [] ∧ ∀ name ∈ info.names,
        ∃ other, some other ∈ earlier ∧ ∃ e ∈ other.names,
          coveredBy index sourceIndex name e = true := by
  simp only [checkShadowed]
  by_cases uncertified : earlier.filterMap id = []
  · rw [if_pos uncertified]
    exact ⟨fun reported => Bool.noConfusion reported, fun covered => absurd uncertified covered.1⟩
  · rw [if_neg uncertified, Option.isSome_map, mapM_isSome_iff]
    simp only [coveringClause, List.find?_isSome, List.any_eq_true, List.mem_filterMap, id]
    refine Iff.trans ?_ (and_iff_right uncertified).symm
    constructor
    · intro covered name member
      obtain ⟨other, ⟨_, memberEarlier, rfl⟩, e, memberNames, coversName⟩ := covered name member
      exact ⟨other, memberEarlier, e, memberNames, coversName⟩
    · intro covered name member
      obtain ⟨other, memberEarlier, e, memberNames, coversName⟩ := covered name member
      exact ⟨other, ⟨some other, memberEarlier, rfl⟩, e, memberNames, coversName⟩

/-- The clause an info belongs to. -/
theorem getElem?_clauseInfos {clauses : List RescueClause} {span : Span} {idx : Nat}
    {info : ClauseInfo}
    (certified : (clauseInfos ast index sourceIndex text clauses span)[idx]? = some (some info)) :
    ∃ clause, clauses[idx]? = some clause ∧
      clauseInfo ast index sourceIndex text idx clause (enclosingPrefix ast span) = some info := by
  rw [clauseInfos, List.getElem?_map, Option.map_eq_some_iff] at certified
  obtain ⟨⟨clause, position⟩, atIdx, certified⟩ := certified
  rw [List.getElem?_zipIdx, Option.map_eq_some_iff] at atIdx
  obtain ⟨clause', atIdx, same⟩ := atIdx
  obtain ⟨rfl, rfl⟩ : clause' = clause ∧ 0 + idx = position := by simpa using same
  exact ⟨clause', atIdx, by simpa using certified⟩

/-- Every report of the pass anchors a clause that `check_shadowed` reports. -/
theorem mem_shadowedRescueDiagnostics {catalogSeverity : Option Severity}
    {diagnostic : Diagnostic}
    (reported : diagnostic ∈
      shadowedRescueDiagnostics ast index sourceIndex text catalogSeverity) :
    ∃ clauses span idx clause, Node.beginRescue clauses span ∈ ast.nodes ∧
      clauses[idx]? = some clause ∧
      Reports ast index sourceIndex text clauses span idx ∧
      (diagnostic.startOffset, diagnostic.endOffset) = clause.span := by
  obtain ⟨node, memberNodes, reported⟩ := List.mem_flatMap.mp reported
  cases node with
  | beginRescue clauses span =>
      simp only [chainDiagnostics] at reported
      split at reported
      · exact absurd reported List.not_mem_nil
      · obtain ⟨⟨info?, idx⟩, memberInfos, reported⟩ := List.mem_filterMap.mp reported
        split at reported
        · exact absurd reported (by simp)
        · obtain ⟨info, rfl, reported⟩ := Option.bind_eq_some_iff.mp reported
          have atIdx := List.mem_zipIdx_iff_getElem?.mp memberInfos
          obtain ⟨clause, clauseAt, certified⟩ := getElem?_clauseInfos atIdx
          refine ⟨clauses, span, idx, clause, memberNodes, clauseAt,
            ⟨info, _, diagnostic, atIdx, reported⟩, ?_⟩
          simp only [checkShadowed] at reported
          split at reported
          · exact absurd reported (by simp)
          · obtain ⟨_, _, rfl⟩ := Option.map_eq_some_iff.mp reported
            rw [← (clauseInfo_cases certified).1]
            rfl
  | constantRead name span dynamicBase => exact absurd reported List.not_mem_nil
  | classDef name rooted span => exact absurd reported List.not_mem_nil
  | moduleDef name rooted span => exact absurd reported List.not_mem_nil
  | other span => exact absurd reported List.not_mem_nil

variable {world : World} {nest : List ConstPath} {clauses : List RescueClause} {span : Span}
  {idx : Nat}

/-- A class the code reads off an earlier clause is one the clause matches. -/
theorem matches_of_mem_names (truthful : Truthful world index sourceIndex)
    (found : FoundLexically world ast sourceIndex text nest clauses span)
    {position : Nat} {clause : RescueClause} {info : ClauseInfo} (memberClauses : clause ∈ clauses)
    (evaluates : ∀ exc ∈ clause.exceptions, designated world ast text nest exc ≠ none)
    (certified : clauseInfo ast index sourceIndex text position clause
      (enclosingPrefix ast span) = some info)
    {name exception : ConstPath} (member : name ∈ info.names)
    (ancestor : name ∈ world.table.ancestors exception) :
    Matches world ast text nest clause exception := by
  unfold Matches
  rcases (clauseInfo_cases certified).2 with ⟨bare, names⟩ | ⟨listed, _, asked⟩
  · rw [if_pos bare]
    rw [names, List.mem_singleton] at member
    rwa [← member]
  · rw [if_neg listed]
    obtain ⟨exc, memberExc, atExc⟩ := asked name member
    obtain ⟨path, written, dynamicBase, read⟩ := constantRead_of_resolveConstant atExc
    obtain rfl := found.static memberClauses memberExc read
    have isDefined := evaluates exc memberExc
    simp only [designated, read] at isDefined
    obtain ⟨c, denoted⟩ := Option.ne_none_iff_exists'.mp isDefined
    obtain ⟨target, ruby, rfl⟩ := Option.map_eq_some_iff.mp denoted
    have direct := ruby
    rw [found.direct memberClauses memberExc read] at direct
    rw [resolveConstant_eq truthful found.nested read direct] at atExc
    obtain rfl := Option.some.inj atExc
    refine ⟨exc, memberExc, target, ?_, ancestor⟩
    simp [designated, read, ruby]

/-- A class the reported clause matches is one the code reads off it. -/
theorem mem_names_of_matches (truthful : Truthful world index sourceIndex)
    (found : FoundLexically world ast sourceIndex text nest clauses span)
    {position : Nat} {clause : RescueClause} {info : ClauseInfo} (memberClauses : clause ∈ clauses)
    (certified : clauseInfo ast index sourceIndex text position clause
      (enclosingPrefix ast span) = some info)
    {exception : ConstPath} (matched : Matches world ast text nest clause exception) :
    ∃ name ∈ info.names, name ∈ world.table.ancestors exception := by
  unfold Matches at matched
  rcases (clauseInfo_cases certified).2 with ⟨bare, names⟩ | ⟨listed, answered, _⟩
  · rw [if_pos bare] at matched
    exact ⟨implicitRescueClass, by simp [names], matched⟩
  · rw [if_neg listed] at matched
    obtain ⟨exc, memberExc, c, denoted, ancestor⟩ := matched
    obtain ⟨name, memberNames, atExc⟩ := answered exc memberExc
    obtain ⟨path, written, dynamicBase, read⟩ := constantRead_of_resolveConstant atExc
    obtain rfl := found.static memberClauses memberExc read
    have ruby : world.table.resolve (if rootedAt text written then [] else nest) path =
        some c := by
      simp only [designated, read] at denoted
      cases resolved : world.table.resolve (if rootedAt text written then [] else nest) path with
      | none => simp [resolved] at denoted
      | some target =>
          obtain rfl : c = target := by simpa [resolved] using denoted
          rfl
    rw [found.direct memberClauses memberExc read] at ruby
    rw [resolveConstant_eq truthful found.nested read ruby] at atExc
    obtain rfl := Option.some.inj atExc
    exact ⟨c, memberNames, ancestor⟩

theorem shadowed_of_reports (truthful : Truthful world index sourceIndex)
    (found : FoundLexically world ast sourceIndex text nest clauses span)
    (reports : Reports ast index sourceIndex text clauses span idx) :
    Shadowed world ast text nest clauses idx := by
  obtain ⟨info, severity, diagnostic, atIdx, reported⟩ := reports
  intro evaluate clause clauseAt exception matched
  obtain ⟨clause', clauseAt', certified⟩ := getElem?_clauseInfos atIdx
  obtain rfl : clause' = clause := Option.some.inj (clauseAt'.symm.trans clauseAt)
  obtain ⟨name, memberNames, ancestor⟩ := mem_names_of_matches truthful found
    (List.mem_of_getElem? clauseAt) certified matched
  have covering := (checkShadowed_isSome_iff.mp (by rw [reported]; rfl)).2
  obtain ⟨other, memberOther, e, memberE, covered⟩ := covering name memberNames
  -- the covering clause stands before the reported one
  obtain ⟨i, atI⟩ := List.getElem?_of_mem memberOther
  rw [List.getElem?_take] at atI
  split at atI
  case isTrue before =>
      obtain ⟨earlier, earlierAt, certifiedEarlier⟩ := getElem?_clauseInfos atI
      have memberEarlier : earlier ∈ clauses.take idx := by
        refine List.mem_of_getElem? (i := i) ?_
        rw [List.getElem?_take, if_pos before, earlierAt]
      refine ⟨earlier, memberEarlier, ?_⟩
      exact matches_of_mem_names truthful found (List.mem_of_mem_take memberEarlier)
        (evaluate earlier memberEarlier) certifiedEarlier memberE
        (world.table.trans ancestor (coveredBy_sound truthful found.superclasses covered))
  case isFalse => exact absurd atI (by simp)

end Reports

/-! ## Where a constant is found elsewhere -/

/-- A project with the core classes it uses. -/
structure Project where
  sourceIndex : SourceIndex
  core : List ConstPath
  modules : List ConstPath
  lines : List (ConstPath × List ConstPath)
  sites : ConstPath → List ConstPath
  closed : ∀ line ∈ lines, ∀ d ∈ line.2, ClassTable.ancestorsIn lines d ⊆ line.2
  nested : ∀ c ∈ sourceIndex.classes.map Prod.fst ++ core,
    c.dropLast = [] ∨ c.dropLast ∈ sourceIndex.classes.map Prod.fst ++ core
  /-- Every header names a superclass. -/
  declared : ∀ entry ∈ sourceIndex.classes, ∀ parent ∈ entry.2.toList, entry.1 ∉ modules ∧
    ∃ super ∈ entry.1 :: ClassTable.ancestorsIn lines entry.1,
      (ClassTable.ofLines (sourceIndex.classes.map Prod.fst ++ core) modules lines closed
        nested).resolve (sites entry.1) parent = some super

namespace Project

def world (project : Project) : World where
  table := ClassTable.ofLines (project.sourceIndex.classes.map Prod.fst ++ project.core)
    project.modules project.lines project.closed project.nested
  sites := project.sites
  dynamic _ := []

/-- An index that orders no two classes. -/
def index (project : Project) : CoreIndex where
  knowsClass := project.core.contains
  isModule := project.modules.contains
  classOrdering a b := if a = b then .equal else .unknown

theorem truthful (project : Project) :
    Truthful project.world project.index project.sourceIndex where
  known name := by
    have declared : project.sourceIndex.knowsClass name = true ↔
        name ∈ project.sourceIndex.classes.map Prod.fst := by
      rw [SourceIndex.knowsClass, List.lookup_isSome_iff, List.mem_map]
      constructor
      · rintro ⟨entry, member, same⟩
        exact ⟨entry, member, (beq_iff_eq.mp same).symm⟩
      · rintro ⟨entry, member, rfl⟩
        exact ⟨entry, member, beq_self_eq_true entry.1⟩
    simp [knownName, declared, world, index, ClassTable.ofLines]
  isModule name _ := rfl
  equal {a b} ordered := by
    obtain rfl : a = b := by simpa [index] using ordered
    exact ⟨List.mem_cons_self, List.mem_cons_self⟩
  subclass {a b} ordered := by
    simp only [index] at ordered
    split at ordered <;> exact ClassOrdering.noConfusion ordered
  superclass {a b} ordered := by
    simp only [index] at ordered
    split at ordered <;> exact ClassOrdering.noConfusion ordered
  disjoint {a b} ordered := by
    simp only [index] at ordered
    split at ordered <;> exact ClassOrdering.noConfusion ordered
  discovered {c parent} discovered := by
    obtain ⟨entry, found, written⟩ := Option.bind_eq_some_iff.mp discovered
    obtain ⟨notModule, super, ancestor, resolved⟩ := project.declared (c, entry)
      (Grouping.mem_of_lookup found) parent (by simpa using written)
    exact ⟨by simpa [world, ClassTable.ofLines] using notModule, super, resolved, ancestor⟩

end Project

section Limits

variable {world : World} {ast : LoweredAst} {index : CoreIndex} {sourceIndex : SourceIndex}
  {text : Text} {clauses : List RescueClause} {span : Span} {idx : Nat}

theorem not_reportSound {nest : List ConstPath} {info : ClauseInfo} {clause : RescueClause}
    {exception : ConstPath}
    (atIdx : (clauseInfos ast index sourceIndex text clauses span)[idx]? = some (some info))
    (reported : (checkShadowed ast index sourceIndex text (lineStartsOf text) .warning info
      ((clauseInfos ast index sourceIndex text clauses span).take idx)).isSome = true)
    (opened : world.table.nesting (enclosingHeaders ast span) = some nest)
    (evaluate : ∀ earlier ∈ clauses.take idx, ∀ exc ∈ earlier.exceptions,
      designated world ast text nest exc ≠ none)
    (clauseAt : clauses[idx]? = some clause)
    (matched : Matches world ast text nest clause exception)
    (unmatched : ∀ earlier ∈ clauses.take idx, ¬Matches world ast text nest earlier exception) :
    ¬ReportSound world ast index sourceIndex text clauses span idx := by
  intro sound
  obtain ⟨diagnostic, reported⟩ := Option.isSome_iff_exists.mp reported
  obtain ⟨earlier, member, earlierMatches⟩ :=
    sound ⟨info, .warning, diagnostic, atIdx, reported⟩ nest opened evaluate clause clauseAt
      exception matched
  exact unmatched earlier member earlierMatches

end Limits

/-- The classes `B`, `B::E`, `E` and `C < B`.  Both errors are standard errors. -/
def inheritedError : Project where
  sourceIndex := ⟨[([['B']], none), ([['B'], ['E']], some implicitRescueClass),
    ([['E']], some implicitRescueClass), ([['C']], some [['B']])]⟩
  core := [implicitRescueClass]
  modules := []
  lines := [([['B'], ['E']], [implicitRescueClass]), ([['E']], [implicitRescueClass]),
    ([['C']], [[['B']]])]
  sites := namespaces
  closed := by decide +kernel
  nested := by decide +kernel
  declared := by decide +kernel

def inheritedFile : Text :=
  "class C < B\nbegin\nx\nrescue ::E\nrescue E\nend\nend\n".toList

def inheritedAst : LoweredAst where
  nodes := [.constantRead [['E']] (27, 30) false, .constantRead [['E']] (38, 39) false,
    .beginRescue [⟨[0], (20, 30)⟩, ⟨[1], (31, 39)⟩] (12, 43), .classDef [['C']] false (0, 47)]

/-- The module `A` with `E`, a second `E`, and `class A::T < E`, whose header stands at the
top level. -/
def compactHeader : Project where
  sourceIndex := ⟨[([['A']], none), ([['A'], ['E']], some implicitRescueClass),
    ([['E']], some implicitRescueClass), ([['A'], ['T']], some [['E']])]⟩
  core := [implicitRescueClass]
  modules := [[['A']]]
  lines := [([['A'], ['E']], [implicitRescueClass]), ([['E']], [implicitRescueClass]),
    ([['A'], ['T']], [[['E']], implicitRescueClass])]
  sites c := if c = [['A'], ['T']] then [] else namespaces c
  closed := by decide +kernel
  nested := by decide +kernel
  declared := by decide +kernel

def compactFile : Text :=
  "begin\nx\nrescue A::E\nrescue A::T\nend\n".toList

def compactAst : LoweredAst where
  nodes := [.constantRead [['A'], ['E']] (15, 19) false,
    .constantRead [['A'], ['T']] (27, 31) false,
    .beginRescue [⟨[0], (8, 19)⟩, ⟨[1], (20, 31)⟩] (0, 35)]

/-- The class `N` and the module `M`, each with an `E`. -/
def rootedHeader : Project where
  sourceIndex := ⟨[([['N']], none), ([['N'], ['E']], some implicitRescueClass),
    ([['M']], none), ([['M'], ['E']], some implicitRescueClass)]⟩
  core := [implicitRescueClass]
  modules := [[['M']]]
  lines := [([['N'], ['E']], [implicitRescueClass]), ([['M'], ['E']], [implicitRescueClass])]
  sites := namespaces
  closed := by decide +kernel
  nested := by decide +kernel
  declared := by decide +kernel

def rootedFile : Text :=
  "module M\nclass ::N\nbegin\nx\nrescue M::E\nrescue E\nend\nend\nend\n".toList

def rootedAst : LoweredAst where
  nodes := [.constantRead [['M'], ['E']] (34, 38) false, .constantRead [['E']] (46, 47) false,
    .beginRescue [⟨[0], (27, 38)⟩, ⟨[1], (39, 47)⟩] (19, 51), .classDef [['N']] true (9, 55),
    .moduleDef [['M']] false (0, 59)]

/-- The same classes with the chain at the top level. -/
def plainFile : Text :=
  "begin\nx\nrescue\nrescue E, ::B::E\nend\n".toList

def plainAst : LoweredAst where
  nodes := [.constantRead [['E']] (22, 23) false, .constantRead [['B'], ['E']] (25, 31) false,
    .beginRescue [⟨[], (8, 14)⟩, ⟨[0, 1], (15, 31)⟩] (0, 35)]

theorem plain_superclassesDirect :
    SuperclassesDirect inheritedError.world inheritedError.sourceIndex := by
  have listed : ∀ entry ∈ inheritedError.sourceIndex.classes, ∀ parent ∈ entry.2.toList,
      inheritedError.world.table.resolve (namespaces entry.1) parent =
        inheritedError.world.table.resolveDirect (namespaces entry.1) parent := by
    decide +kernel
  intro c parent discovered
  obtain ⟨entry, found, written⟩ := Option.bind_eq_some_iff.mp discovered
  exact ⟨rfl, listed (c, entry) (Grouping.mem_of_lookup found) parent (by simpa using written)⟩

end Rigor.Rules
