import Rigor.Infer.Narrowing.Shelter

/-!
# Soundness of class narrowing

Whenever a run of a sheltered body executes a call that the walk records as narrowed, the
receiver is an instance of the recorded class.
-/

namespace Rigor.Infer.Narrowing

open Rigor.Library.Triples

universe u v

/-! ### Records -/

/-- The call nodes of a part have the records of its walk, and no other part has a record of
them. -/
structure Owns (recorded : List Use) (ids : List Nat) (uses : List Use) : Prop where
  nodup : ids.Nodup
  covers : ∀ id ∈ ids, ∀ className, .narrowed id className ∈ recorded →
    .narrowed id className ∈ uses

namespace Owns

variable {recorded front back uses : List Use} {first second : List Nat}

theorem left (owns : Owns recorded (first ++ second) (front ++ back))
    (within : UsesWithin back second) : Owns recorded first front := by
  have apart := List.nodup_append.mp owns.nodup
  constructor
  · exact apart.1
  · intro id mem className isRecorded
    have found := owns.covers id (List.mem_append_left _ mem) className isRecorded
    rcases List.mem_append.mp found with inFront | inBack
    · exact inFront
    · exact absurd rfl (apart.2.2 id mem id (within id className inBack))

theorem right (owns : Owns recorded (first ++ second) (front ++ back))
    (within : UsesWithin front first) : Owns recorded second back := by
  have apart := List.nodup_append.mp owns.nodup
  constructor
  · exact apart.2.1
  · intro id mem className isRecorded
    have found := owns.covers id (List.mem_append_right _ mem) className isRecorded
    rcases List.mem_append.mp found with inFront | inBack
    · exact absurd rfl (apart.2.2 id (within id className inFront) id mem)
    · exact inBack

theorem perm (owns : Owns recorded first uses) (same : first.Perm second) :
    Owns recorded second uses :=
  ⟨same.nodup_iff.mp owns.nodup, fun id mem => owns.covers id (same.mem_iff.mpr mem)⟩

end Owns

section Sound

variable {V : Type u} {scene : Scene V} {recorded : List Use}

/-- The receiver of a call is an instance of each class recorded for the call. -/
def Scene.Right (scene : Scene V) (recorded : List Use) (event : Nat × V) : Prop :=
  ∀ className, .narrowed event.1 className ∈ recorded → scene.world.isA event.2 className

/-- A part without records has no recorded calls. -/
theorem right_of_silent {α : Type v} {m : Run V α} {start : Text → V} {names : List Text}
    {ids : List Nat} (owns : Owns recorded ids []) (confined : Confined start names ids m) :
    Triple (Agrees start names) m (scene.Right recorded) fun _ => Agrees start names := by
  apply Triple.allow confined
  intro event mem className isRecorded
  exact nomatch owns.covers event.1 mem className isRecorded

/-! ### Steps -/

theorem Scene.Holds.kill {facts : Facts} {s : Text → V} (holds : scene.Holds facts s)
    (name : Text) (value : V) :
    scene.Holds (facts.kill name) (Function.update s name value) := by
  intro other className narrowed
  have before := holds other className (Narrower.kill facts name other className narrowed)
  have different : other ≠ name := by
    rintro rfl
    rw [Facts.kill, Function.update_self] at narrowed
    cases narrowed
  rw [Function.update_of_ne different]
  exact before

theorem setLocal_holds {facts : Facts} (name : Text) (value : V) :
    Triple (scene.Holds facts) (setLocal name value) (scene.Right recorded)
      (onDone fun _ => scene.Holds (facts.kill name)) := by
  have updated : Triple (scene.Holds facts)
      (Prog.modify fun s => Function.update s name value : Run V Unit) (scene.Right recorded)
      (onDone fun _ => scene.Holds (facts.kill name)) :=
    Triple.modify fun s holds => holds.kill name value
  exact Triple.bindDone updated fun _ => Triple.pure fun _ => id

theorem setLocals_holds {facts : Facts} (targets : List Text) (value : V) :
    Triple (scene.Holds facts) (setLocals targets value) (scene.Right recorded)
      (onDone fun _ => scene.Holds (facts.killAll targets)) := by
  have chosen : Triple (scene.Holds facts)
      (Prog.choose fun _ : Text → V => True : Run V (Text → V)) (scene.Right recorded)
      (onDone fun _ => scene.Holds facts) :=
    Triple.choose fun _ _ _ => id
  apply Triple.bindDone chosen
  intro values
  have updated : Triple (scene.Holds facts)
      (Prog.modify fun s name => if name ∈ targets then values name else s name : Run V Unit)
      (scene.Right recorded) (onDone fun _ => scene.Holds (facts.killAll targets)) := by
    apply Triple.modify
    intro s holds name className narrowed
    have spared := Narrower.killAll facts targets name className narrowed
    dsimp only
    rw [if_neg spared.2]
    exact holds name className spared.1
  exact Triple.bindDone updated fun _ => Triple.pure fun _ => id

theorem lastOf_done {m : Run V (List V)} {pre : (Text → V) → Prop} {post : (Text → V) → Prop}
    (inner : Triple pre m (scene.Right recorded) (onDone fun _ => post)) :
    Triple pre (lastOf scene.world m) (scene.Right recorded) (onDone fun _ => post) :=
  Triple.bindDone inner fun _ => Triple.pure fun _ => id

theorem answerCall_holds {facts : Facts} (callee : Option V) (method : Text) (args : List V) :
    Triple (scene.Holds facts) (answerCall scene.world callee method args)
      (scene.Right recorded) (onDone fun _ => scene.Holds facts) := by
  unfold answerCall
  split
  · exact Triple.either (Triple.halt fun _ _ => trivial) (Triple.choose fun _ _ _ => id)
  · split
    · exact Triple.halt fun _ _ => trivial
    · exact Triple.either (Triple.halt fun _ _ => trivial) (Triple.choose fun _ _ _ => id)

/-- A bare local as a receiver is read. -/
theorem runOpt_local {receiver : Option Node} {name : Text}
    (isLocal : receiver.bind bareLocal = some name) :
    Triple (fun _ => True) (runOpt scene.world receiver) anyEvent
      (onDone fun callee s => callee = some (s name)) := by
  rcases Option.bind_eq_some_iff.mp isLocal with ⟨node, rfl, isRead⟩
  rw [bareLocal_eq_some isRead, runOpt, run]
  have read : Triple (fun _ => True) (Prog.read fun s => s name : Run V V) anyEvent
      (onDone fun value s => value = s name) :=
    Triple.read fun _ _ => rfl
  apply Triple.bindDone read
  intro value
  exact Triple.pure fun s same => congrArg some same

theorem runOpt_read (receiver : Option Node) :
    Triple (fun _ => True) (runOpt scene.world receiver) anyEvent
      (onDone fun callee s =>
        ∀ name, receiver.bind bareLocal = some name → callee = some (s name)) := by
  cases isLocal : receiver.bind bareLocal with
  | none =>
      apply (triple_any _).weakenPost
      intro e s _
      cases e with
      | done _ => exact nofun
      | aborted _ => trivial
  | some name =>
      exact (runOpt_local isLocal).weakenDone fun _ _ same _ found =>
        Option.some.inj found ▸ same

/-- A recorded call is right about its receiver. -/
theorem recordCall_holds {id : Nat} {receiver : Option Node} {safeNav : Bool} {facts : Facts}
    {callee : Option V}
    (own : ∀ className, .narrowed id className ∈ recorded →
      .narrowed id className ∈ useOf id receiver safeNav facts) :
    Triple (fun s => scene.Holds facts s ∧
        ∀ name, receiver.bind bareLocal = some name → callee = some (s name))
      (recordCall id receiver callee) (scene.Right recorded)
      (onDone fun _ => scene.Holds facts) := by
  unfold recordCall
  split
  · rename_i name value isLocal
    apply Triple.emit
    rintro s ⟨holds, read⟩
    refine ⟨?_, holds⟩
    intro className isRecorded
    have same : value = s name := Option.some.inj (read name isLocal)
    have used := own className isRecorded
    simp only [useOf, isLocal] at used
    split at used
    · simp at used
    · simp at used
    · rename_i found narrowed
      split at used
      · nomatch used
      · simp only [List.mem_singleton, Use.narrowed.injEq, true_and] at used
        rw [same, used]
        exact (holds name found narrowed).2.2.2
    · nomatch used
  · exact Triple.pure fun s start => start.1

/-! ### Branches -/

/-- What a completed run through a branch of an `if` leaves. -/
def Scene.Branched (scene : Scene V) (facts : Facts) (guards : GuardMap) (names : List Text)
    (edge : Facts) (exits : Bool) (s : Text → V) : Prop :=
  scene.Holds edge s ∧ exits = false ∧ ∃ start, scene.Holds facts start ∧
    (∀ entry ∈ guards, scene.Fulfilled start entry) ∧ Agrees start names s

theorem branch_holds {body : List Node} (blocked : Bool) {types : Types} {facts edge : Facts}
    {guards : GuardMap} (known : ∀ entry ∈ guards, scene.Known entry)
    (apart : ∀ entry ∈ guards, scene.Apart entry)
    (inner : Triple
      (scene.Holds (applyGuards scene.index scene.coarse types guards [] facts))
      (runList scene.world body) (scene.Right recorded) (onDone fun _ => scene.Holds edge)) :
    Triple (fun s => scene.Holds facts s ∧ ∀ entry ∈ guards, scene.Fulfilled s entry)
      (lastOf scene.world (runList scene.world body)) (scene.Right recorded)
      (onDone fun _ => scene.Branched facts guards (assignedIn (nodesList body blocked)) edge
        (branchTerminates body)) := by
  apply lastOf_done
  apply Triple.of_start
  intro start given
  have frame : Triple (· = start) (runList scene.world body) anyEvent
      (fun _ => Agrees start (assignedIn (nodesList body blocked))) := runList_frame body blocked
  have exits : Triple (fun _ => True) (runList scene.world body) anyEvent
      (onDone fun _ _ => branchTerminates body = false) := by
    by_cases ends : branchTerminates body = true
    · exact (runList_never scene.world body ends).weakenDone fun _ _ => False.elim
    · apply (triple_any _).weakenPost
      intro e s _
      cases e with
      | done _ => exact Bool.eq_false_of_not_eq_true ends
      | aborted _ => trivial
  have all := (inner.also frame).also exits
  apply all.weaken
  · rintro s rfl
    exact ⟨⟨applyGuards_holds given.1 known given.2 apart, rfl⟩, trivial⟩
  · intro e s ended
    cases e with
    | aborted _ => trivial
    | done _ => exact ⟨ended.1.1, ended.2, start, given.1, given.2, ended.1.2⟩

/-- The facts after an `if` hold after each of its branches. -/
theorem joinIf_holds {types : Types} {before thenEdge elseEdge edge : Facts}
    {thenEnds elseEnds : Bool} {guards carried : GuardMap} {written names : List Text}
    {exits : Bool} {s : Text → V} (branched : scene.Branched before guards names edge exits s)
    (taken : edge = thenEdge ∨ edge = elseEdge)
    (known : ∀ entry ∈ guards, scene.Known entry)
    (apart : ∀ entry ∈ guards, scene.Apart entry)
    (carries : ∀ entry ∈ carried, entry ∈ guards ∧ entry.1 ∉ written)
    (assigned : ∀ name ∈ names, name ∉ scene.coarse → name ∈ written) :
    scene.Holds (joinIf scene.index scene.coarse types before thenEdge elseEdge thenEnds elseEnds
      carried written) s := by
  rcases branched with ⟨holds, _, start, first, fulfilled, agrees⟩
  apply applyGuards_holds
  · intro name className narrowed
    unfold Facts.restore at narrowed
    split at narrowed
    · rename_i inCarried
      rcases List.mem_map.mp inCarried.1 with ⟨entry, mem, rfl⟩
      have was := first _ className narrowed
      have unchanged := agrees entry.1 fun mem' =>
        (carries entry mem).2 (assigned _ mem' was.1)
      rw [unchanged]
      exact was
    · have kept := narrowed_of_joined narrowed
      rcases taken with rfl | rfl
      · exact holds name className kept.2.2.1
      · exact holds name className kept.2.2.2
  · exact fun entry mem => known entry (carries entry mem).1
  · intro entry mem
    apply (fulfilled entry (carries entry mem).1).of_agrees ?_ agrees
    intro inNames
    by_contra notCoarse
    exact (carries entry mem).2 (assigned _ inNames notCoarse)
  · exact fun entry mem => apart entry (carries entry mem).1

/-- Guards carried past an `if` are those of the branch that does not exit. -/
theorem mem_propagated {guards : GuardMap × GuardMap} {thenEnds elseEnds : Bool}
    {written : List Text} {entry : Text × GuardFact}
    (mem : entry ∈ propagated guards thenEnds elseEnds written) :
    entry.1 ∉ written ∧ (thenEnds = false → entry ∈ guards.1) ∧
      (elseEnds = false → entry ∈ guards.2) := by
  unfold propagated at mem
  split at mem
  · nomatch mem
  · rename_i differ
    unfold carriedGuards at mem
    have found := List.mem_filter.mp mem
    refine ⟨by simpa using found.2, ?_, ?_⟩
    · rintro rfl
      cases elseEnds with
      | true => exact found.1
      | false => exact absurd rfl differ
    · rintro rfl
      cases thenEnds with
      | true => exact found.1
      | false => exact absurd rfl differ

/-- The facts a clause starts with hold if its constant matched the subject. -/
theorem clauseFacts_holds {types : Types} {subject collapsing : Option Text} {constant : Text}
    {facts : Facts} {s : Text → V} (holds : scene.Holds facts s)
    (matched : ∀ name ∈ subject, ∀ className,
      scene.index.resolvedStaticConstant (.constantRead constant) = some className →
        name ∉ scene.coarse ∧ ¬scene.Misread name ∧ scene.Asserts name className ∧
          scene.world.isA (s name) className) :
    scene.Holds (clauseFacts scene.index types subject collapsing constant facts) s := by
  have notNarrowed : ∀ name fact, (∀ className, fact ≠ some (.narrowed className)) →
      scene.Holds (Function.update facts name fact) s := by
    intro name fact isOther other className narrowed
    by_cases same : other = name
    · rw [same, Function.update_self] at narrowed
      exact absurd narrowed (isOther className)
    · rw [Function.update_of_ne same] at narrowed
      exact holds other className narrowed
  simp only [clauseFacts]
  split
  · rename_i name
    split
    · exact holds
    · rename_i className resolved
      split
      · exact notNarrowed name none nofun
      · intro other found narrowed
        by_cases same : other = name
        · subst same
          rw [Function.update_self, Option.some.injEq, ClassFact.narrowed.injEq] at narrowed
          exact narrowed ▸ matched other rfl className resolved
        · rw [Function.update_of_ne same] at narrowed
          exact holds other found narrowed
  · split
    · exact notNarrowed _ _ nofun
    · exact notNarrowed _ _ nofun
    · exact holds
  · exact holds

/-! ### Protected statements -/

theorem calm_of_keep {clauses : List Clause} {blocked : Bool} {followed : Prop}
    (keep : ClausesKeep scene.index scene.coarse blocked followed clauses) (follows : followed) :
    calmClauses scene.index scene.coarse blocked clauses := by
  induction clauses with
  | nil => nofun
  | cons clause rest ih =>
      rcases keep with ⟨here, later⟩
      intro other mem
      rcases List.mem_cons.mp mem with rfl | inRest
      · exact here (.inr follows) other List.mem_cons_self
      · exact ih later other inRest

/-- What the statements of a `begin` before its `ensure` may change. -/
def protectedNames (mainBody : List Node) (clauses : List Clause) (elseBody : List Node)
    (blocked : Bool) : List Text :=
  assignedIn (nodesList elseBody blocked) ++
    (assignedIn (nodesClauses clauses blocked) ++
      (assignedIn (nodesList mainBody blocked) ++ boundNames clauses))

/-- The program of a `begin` before its `ensure`. -/
def runProtected (world : World V) (mainBody : List Node) (clauses : List Clause)
    (elseBody : List Node) : Run V V :=
  protect (runList world mainBody) (runClauses world clauses) fun values =>
    if elseBody.isEmpty then .pure (values.getLastD world.nil)
    else lastOf world (runList world elseBody)

theorem runProtected_frame (mainBody : List Node) (clauses : List Clause) (elseBody : List Node)
    (blocked : Bool) (start : Text → V) :
    Triple (· = start) (runProtected scene.world mainBody clauses elseBody) anyEvent
      (fun _ => Agrees start (protectedNames mainBody clauses elseBody blocked)) := by
  have confined : Confined start (protectedNames mainBody clauses elseBody blocked)
      (callIdsIn (nodesList mainBody blocked) ++ (callIdsIn (nodesClauses clauses blocked) ++
        callIdsIn (nodesList elseBody blocked)))
      (runProtected scene.world mainBody clauses elseBody) := by
    apply Confined.protect
    · apply runList_confined scene.world mainBody blocked
      constructor
      · intro name mem
        simp only [protectedNames, List.mem_append, mem, or_true, true_or]
      · exact fun id mem => List.mem_append_left _ mem
    · apply runClauses_confined scene.world clauses blocked
      · constructor
        · intro name mem
          simp only [protectedNames, List.mem_append, mem, or_true, true_or]
        · exact fun id mem => List.mem_append_right _ (List.mem_append_left _ mem)
      · intro name mem
        simp only [protectedNames, List.mem_append, mem, or_true]
    · intro values
      split
      · exact .pure
      · apply Confined.lastOf
        apply runList_confined scene.world elseBody blocked
        constructor
        · intro name mem
          simp only [protectedNames, List.mem_append, mem, true_or]
        · exact fun id mem => List.mem_append_right _ (List.mem_append_right _ mem)
  apply (Triple.allow confined fun _ _ => trivial).weakenPre
  rintro s rfl
  exact fun _ _ => rfl

/-- The calls before the `ensure` of a `begin`. -/
theorem runProtected_right {mainBody elseBody : List Node} {clauses : List Clause}
    (blocked : Bool) {start main rescues : Facts}
    (mainRight : Triple (scene.Holds start) (runList scene.world mainBody)
      (scene.Right recorded) (onDone fun _ => scene.Holds main))
    (clausesRight : Triple (fun s => Busy clauses → scene.Holds main s)
      (runClauses scene.world clauses) (scene.Right recorded) (onDone fun _ _ => True))
    (elseRight : Triple (scene.Holds rescues) (runList scene.world elseBody)
      (scene.Right recorded) (onDone fun _ _ => True))
    (mainSpares : Busy clauses → Fine scene.coarse start →
      Spares main start (assignedIn (nodesList mainBody blocked)))
    (clausesSpare : elseBody ≠ [] → Fine scene.coarse main → Narrower rescues main) :
    Triple (scene.Holds start) (runProtected scene.world mainBody clauses elseBody)
      (scene.Right recorded) (onDone fun _ _ => True) := by
  apply Triple.of_start
  intro s₀ holds
  have frame : Triple (· = s₀) (runList scene.world mainBody) anyEvent
      (fun _ => Agrees s₀ (assignedIn (nodesList mainBody blocked))) :=
    runList_frame mainBody blocked
  have first : Triple (· = s₀) (runList scene.world mainBody) (scene.Right recorded)
      (fun e s => onDone (fun _ => scene.Holds main) e s ∧
        Agrees s₀ (assignedIn (nodesList mainBody blocked)) s) := by
    apply (mainRight.also frame).weakenPre
    rintro s rfl
    exact ⟨holds, rfl⟩
  apply Triple.settle first
  intro ended
  cases ended with
  | done values =>
      dsimp only
      split
      · exact Triple.pure fun _ _ => trivial
      · rename_i notEmpty
        rw [List.isEmpty_iff] at notEmpty
        apply lastOf_done
        apply elseRight.weakenPre
        intro s reached
        exact reached.1.of_narrower (clausesSpare notEmpty reached.1.fine)
  | aborted halt =>
      cases halt with
      | raised =>
          apply clausesRight.weakenPre
          intro s reached busy
          exact holds.of_spares (mainSpares busy holds.fine) reached.2
      | left => exact Triple.halt fun _ _ => trivial

theorem testConstant_holds {pre : (Text → V) → Prop} (constant : Text) (value : Option V) :
    Triple pre (testConstant scene.world constant value) (scene.Right recorded)
      (onDone fun result s => pre s ∧ ∀ v, value = some v →
        scene.world.answers (scene.world.constant constant) "===".toList [v] result) := by
  unfold testConstant
  split
  · rename_i v
    apply Triple.either (Triple.halt fun _ _ => trivial)
    exact Triple.choose fun result s answer start =>
      ⟨start, fun w same => Option.some.inj same ▸ answer⟩
  · exact Triple.either (Triple.halt fun _ _ => trivial)
      (Triple.pure fun s start => ⟨start, by rintro _ ⟨⟩⟩)

/-- A bound exception changes a coarse local. -/
theorem bindException_holds {facts : Facts} {boundName : Option Text}
    (bound : ∀ name ∈ boundName, name ∈ scene.coarse) :
    Triple (scene.Holds facts) (bindException boundName) (scene.Right recorded)
      (onDone fun _ => scene.Holds facts) := by
  unfold bindException
  split
  · exact Triple.pure fun _ => id
  · rename_i name
    have chosen : Triple (scene.Holds facts) (someValue : Run V V) (scene.Right recorded)
        (onDone fun _ => scene.Holds facts) :=
      Triple.choose fun _ _ _ => id
    apply Triple.bindDone chosen
    intro value
    apply Triple.modify
    intro s holds other className narrowed
    have before := holds other className narrowed
    have different : other ≠ name := fun same => before.1 (same ▸ bound name rfl)
    rw [Function.update_of_ne different]
    exact before

theorem bindException_quiet {boundName : Option Text} :
    Triple (fun _ => True) (bindException boundName) (scene.Right recorded)
      (onDone fun _ _ => True) := by
  unfold bindException
  split
  · exact Triple.pure fun _ => id
  · have chosen : Triple (fun _ => True) (someValue : Run V V) (scene.Right recorded)
        (onDone fun _ _ => True) :=
      Triple.choose fun _ _ _ => id
    exact Triple.bindDone chosen fun _ => Triple.modify fun _ => id

theorem mem_boundNames_cons {within : Bool} {boundName : Option Text}
    {exceptions body : List Node} {name : Text} (mem : name ∈ boundName) (rest : List Clause) :
    name ∈ boundNames (.mk within boundName exceptions body :: rest) :=
  List.mem_filterMap.mpr ⟨_, List.mem_cons_self, mem⟩

theorem boundNames_subset (clause : Clause) (rest : List Clause) :
    boundNames rest ⊆ boundNames (clause :: rest) := by
  intro name mem
  rcases List.mem_filterMap.mp mem with ⟨other, inRest, bound⟩
  exact List.mem_filterMap.mpr ⟨other, List.mem_cons_of_mem _ inRest, bound⟩

theorem idle_of_not_busy {within : Bool} {boundName : Option Text} {exceptions body : List Node}
    {rest : List Clause} (idle : ¬Busy (.mk within boundName exceptions body :: rest)) :
    exceptions = [] ∧ body = [] ∧ ¬Busy rest := by
  refine ⟨?_, ?_, ?_⟩
  · by_contra tests
    exact idle ⟨_, List.mem_cons_self, .inl tests⟩
  · by_contra statements
    exact idle ⟨_, List.mem_cons_self, .inr statements⟩
  · rintro ⟨clause, mem, busy⟩
    exact idle ⟨clause, List.mem_cons_of_mem _ mem, busy⟩

/-! ### The walk -/

theorem clause_matched (truthful : Truthful scene.index scene.world)
    (sheltered : scene.Sheltered) {subject : Option Text} {constant : Text} {value : Option V} {result : V}
    {s : Text → V}
    (tests : ∀ name ∈ subject, name ∉ scene.coarse ∧ scene.Tests name constant)
    (read : ∀ name ∈ subject, value = some (s name)) (truthy : scene.world.truthy result)
    (answer : ∀ v, value = some v →
      scene.world.answers (scene.world.constant constant) "===".toList [v] result) :
    ∀ name ∈ subject, ∀ className,
      scene.index.resolvedStaticConstant (.constantRead constant) = some className →
        name ∉ scene.coarse ∧ ¬scene.Misread name ∧ scene.Asserts name className ∧
          scene.world.isA (s name) className := by
  intro name isSubject className resolved
  rcases Index.resolvedStaticConstant_eq_some resolved with
    ⟨_, named, unshadowed, same, rfl⟩
  cases same
  have tested := tests name isSubject
  have wellRead : ¬scene.Misread name := by
    intro misread
    rcases sheltered.tests name tested.1 misread constant tested.2 with empty | shadowed
    · exact named empty
    · rw [unshadowed] at shadowed
      cases shadowed
  have matched := (truthful.caseEq constant _ _ named unshadowed
    (answer _ (read name isSubject))).mp truthy
  exact ⟨tested.1, wellRead, .inr ⟨constant, tested.2, rfl⟩,
    scene.isA_of_instanceOf tested.2 wellRead matched⟩

/-- The local that a `case` narrows is its subject. -/
theorem mem_caseSubject {coarse : List Text} {types : Types} {subject : Option Node}
    {position : Bool} {name : Text}
    (mem : name ∈ (caseSubject coarse types subject position).1) :
    subject.bind bareLocal = some name ∧ name ∉ coarse := by
  have found := Option.mem_filter_iff.mp mem
  rw [Bool.and_eq_true, decide_eq_true_eq] at found
  refine ⟨?_, found.2.1⟩
  have named := found.1
  split at named
  · exact named
  · nomatch named

theorem Scene.Tests.of_case {subject : Option Node} {branches : List Branch}
    {elseBody body : List Node} {blocked : Bool} {name constant : Text}
    (inBody : (blocked, .case_ subject branches elseBody) ∈ scene.all)
    (isSubject : subject.bind bareLocal = some name)
    (mem : .mk constant body ∈ branches) : scene.Tests name constant := by
  rcases Option.bind_eq_some_iff.mp isSubject with ⟨node, rfl, isRead⟩
  refine ⟨_, inBody, List.mem_flatMap.mpr ⟨_, mem, ?_⟩⟩
  simp [testedPair, isRead]

/-- The facts of an edge of a `case` hold after it. -/
theorem joinCase_holds {before edge : Facts} {edges : List (Facts × Bool)}
    {subjects written : List Text} {s : Text → V} (holds : scene.Holds edge s)
    (mem : edge ∈ edges.map Prod.fst) :
    scene.Holds (joinCase before edges subjects written) s := by
  intro name className narrowed
  exact holds name className ((narrowed_of_joinCase narrowed).2.2 edge mem)

/-- A part that is not walked has no recorded calls. -/
theorem runList_right {list : List Node} {blocked : Bool}
    (owns : Owns recorded (callIdsIn (nodesList list blocked)) []) :
    Triple (fun _ => True) (runList scene.world list) (scene.Right recorded)
      fun _ _ => True := by
  apply Triple.of_start
  intro start _
  have confined : Confined start (assignedIn (nodesList list blocked))
      (callIdsIn (nodesList list blocked)) (runList scene.world list) :=
    runList_confined scene.world list blocked ⟨fun _ => id, fun _ => id⟩
  have silent : Triple (Agrees start (assignedIn (nodesList list blocked)))
      (runList scene.world list) (scene.Right recorded)
      fun _ => Agrees start (assignedIn (nodesList list blocked)) :=
    right_of_silent owns confined
  apply silent.weaken
  · rintro s rfl
    exact fun _ _ => rfl
  · exact fun _ _ _ => trivial

/-- Both branches of an `if` have a property of both edges. -/
theorem branchGuards_all {predicate : Node} {property : Text × GuardFact → Prop}
    (both : (∀ entry ∈ (scene.index.edgesOf predicate).1, property entry) ∧
      ∀ entry ∈ (scene.index.edgesOf predicate).2, property entry) (isUnless : Bool) :
    (∀ entry ∈ (branchGuards scene.index predicate isUnless).1, property entry) ∧
      ∀ entry ∈ (branchGuards scene.index predicate isUnless).2, property entry := by
  cases isUnless with
  | true => exact both.symm
  | false => exact both

/-- The guards of the branch that a run takes are fulfilled. -/
theorem branchGuards_taken {predicate : Node} {value : V} {s : Text → V}
    (taken : scene.Taken (scene.index.edgesOf predicate) value s) (isUnless : Bool) :
    ((scene.world.truthy value ↔ isUnless = false) →
      ∀ entry ∈ (branchGuards scene.index predicate isUnless).1, scene.Fulfilled s entry) ∧
    (¬(scene.world.truthy value ↔ isUnless = false) →
      ∀ entry ∈ (branchGuards scene.index predicate isUnless).2, scene.Fulfilled s entry) := by
  cases isUnless with
  | true =>
      constructor
      · intro falsey
        exact taken.2 fun truthy => nomatch falsey.mp truthy
      · intro differs
        apply taken.1
        by_contra falsey
        exact differs ⟨fun truthy => absurd truthy falsey, nofun⟩
  | false =>
      constructor
      · exact fun truthy => taken.1 (truthy.mpr rfl)
      · exact fun differs => taken.2 fun truthy => differs ⟨fun _ => rfl, fun _ => truthy⟩

/-- What a part of a node assigns is written by the node, unless it is coarse. -/
theorem mem_written {part found : List (Bool × Node)} (regular : Regular scene.coarse scene.all)
    (within : part ⊆ found) (sub : found ⊆ scene.all) :
    ∀ name ∈ assignedIn part, name ∉ scene.coarse →
      name ∈ writesIn scene.index.floored found := by
  intro name inPart notCoarse
  rcases List.mem_flatMap.mp inPart with ⟨entry, mem, bound⟩
  have assigned : name ∈ assignedIn found := List.mem_flatMap.mpr ⟨entry, within mem, bound⟩
  rcases mem_writesIn_of_assigned assigned with written | ⟨node, mem, binds⟩ | ⟨entry, mem, bound⟩
  · exact written
  · exact absurd (regular.settled.blocked node (sub mem) name binds) notCoarse
  · exact absurd (regular.settled.rescued entry (sub mem) name bound) notCoarse

/-- A store on which the facts hold satisfies the facts after a calm node as well. -/
theorem Scene.Holds.afterNode {node : Node} {stmt position blocked : Bool} {env : Env}
    {s : Text → V} (holds : scene.Holds env.facts s) (regular : Regular scene.coarse scene.all)
    (sub : nodes node blocked ⊆ scene.all)
    (quiet : position = true → early scene.index scene.coarse node stmt blocked = false) :
    scene.Holds (walk scene.index scene.coarse node stmt position blocked env).1.facts s :=
  holds.of_narrower (walk_spares regular node stmt position blocked env sub quiet holds.fine).narrower

theorem Scene.Holds.afterList {list : List Node} {stmt position blocked : Bool} {env : Env}
    {s : Text → V} (holds : scene.Holds env.facts s) (regular : Regular scene.coarse scene.all)
    (sub : nodesList list blocked ⊆ scene.all)
    (quiet : position = true →
      stmt = true ∧ earlyList scene.index scene.coarse list blocked = false) :
    scene.Holds (walkList scene.index scene.coarse list stmt position blocked env).1.facts s :=
  holds.of_narrower
    (walkList_spares regular list stmt position blocked env sub quiet holds.fine).narrower

variable (truthful : Truthful scene.index scene.world) (regular : Regular scene.coarse scene.all)
  (sheltered : scene.Sheltered)
include truthful regular sheltered

/-- An `if` is walked rightly if its predicate and its branches are. -/
theorem cond_sound {predicate : Node} {thenBody elseBody : List Node} {isUnless blocked : Bool}
    {types after : Types} {start before thenEdge elseEdge : Facts} (statement : Bool)
    (sub : nodes (.cond predicate thenBody elseBody isUnless) blocked ⊆ scene.all)
    (first : Triple (scene.Holds start) (run scene.world predicate) (scene.Right recorded)
      (onDone fun _ => scene.Holds before))
    (thenSound : Triple (scene.Holds (applyGuards scene.index scene.coarse types
        (branchGuards scene.index predicate isUnless).1 [] before))
      (runList scene.world thenBody) (scene.Right recorded)
      (onDone fun _ => scene.Holds thenEdge))
    (elseSound : Triple (scene.Holds (applyGuards scene.index scene.coarse types
        (branchGuards scene.index predicate isUnless).2 [] before))
      (runList scene.world elseBody) (scene.Right recorded)
      (onDone fun _ => scene.Holds elseEdge)) :
    Triple (scene.Holds start)
      (run scene.world (.cond predicate thenBody elseBody isUnless)) (scene.Right recorded)
      (onDone fun _ => scene.Holds (joinIf scene.index scene.coarse after before thenEdge
        elseEdge (branchTerminates thenBody) (branchTerminates elseBody)
        (if statement then propagated (branchGuards scene.index predicate isUnless)
          (branchTerminates thenBody) (branchTerminates elseBody)
          (writesIn scene.index.floored
            (nodes (.cond predicate thenBody elseBody isUnless) blocked)) else [])
        (writesIn scene.index.floored
          (nodes (.cond predicate thenBody elseBody isUnless) blocked)))) := by
  have whole := sub
  rw [nodes, List.cons_subset, List.append_subset] at whole
  have taken := edgesAt_fulfilled truthful 64 whole.2.1
    (sheltered.operands _ _ _ _ _ whole.1)
  have known := branchGuards_all (edgesAt_known sheltered.tests 64 whole.2.1) isUnless
  have apart := branchGuards_all (sheltered.unions _ _ _ _ _ whole.1) isUnless
  have inThen : nodesList thenBody blocked ⊆
      nodes (.cond predicate thenBody elseBody isUnless) blocked := by
    rw [nodes]
    exact fun _ mem =>
      List.mem_cons_of_mem _ (List.mem_append_right _ (List.mem_append_left _ mem))
  have inElse : nodesList elseBody blocked ⊆
      nodes (.cond predicate thenBody elseBody isUnless) blocked := by
    rw [nodes]
    exact fun _ mem =>
      List.mem_cons_of_mem _ (List.mem_append_right _ (List.mem_append_right _ mem))
  have both := (first.alsoDone taken).weakenPre fun s (holds : scene.Holds start s) =>
    ⟨holds, trivial⟩
  rw [run]
  apply Triple.bindDone both
  intro value
  apply Triple.either
  · apply Triple.assuming
    intro here
    apply (branch_holds blocked known.1 apart.1 thenSound).weaken
    · exact fun s reached => ⟨reached.1, (branchGuards_taken reached.2 isUnless).1 here⟩
    · intro e s ended
      cases e with
      | aborted _ => trivial
      | done _ =>
          apply joinIf_holds ended (.inl rfl) known.1 apart.1
          · intro entry mem
            split at mem
            · have carried := mem_propagated mem
              exact ⟨carried.2.1 ended.2.1, carried.1⟩
            · nomatch mem
          · exact mem_written regular inThen sub
  · apply Triple.assuming
    intro here
    apply (branch_holds blocked known.2 apart.2 elseSound).weaken
    · exact fun s reached => ⟨reached.1, (branchGuards_taken reached.2 isUnless).2 here⟩
    · intro e s ended
      cases e with
      | aborted _ => trivial
      | done _ =>
          apply joinIf_holds ended (.inr rfl) known.2 apart.2
          · intro entry mem
            split at mem
            · have carried := mem_propagated mem
              exact ⟨carried.2.2 ended.2.1, carried.1⟩
            · nomatch mem
          · exact mem_written regular inElse sub

omit truthful regular sheltered in
/-- The `ensure` of a `begin` runs after whatever came before it. -/
theorem begin_sound {mainBody elseBody ensureBody : List Node} {clauses : List Clause}
    (blocked : Bool) {before elseEdge : Facts}
    (inner : Triple (scene.Holds before) (runProtected scene.world mainBody clauses elseBody)
      (scene.Right recorded) (onDone fun _ _ => True))
    (ensureSound : Triple (scene.Holds elseEdge) (runList scene.world ensureBody)
      (scene.Right recorded) (onDone fun _ _ => True))
    (spares : ensureBody ≠ [] → Fine scene.coarse before →
      Spares elseEdge before (protectedNames mainBody clauses elseBody blocked)) :
    Triple (scene.Holds before)
      (run scene.world (.beginRescue mainBody clauses elseBody ensureBody))
      (scene.Right recorded) (onDone fun _ _ => True) := by
  have exits : ∀ ended : Exit Signal V, Triple (fun _ => True)
      (Prog.exit ended : Run V V) (scene.Right recorded) (onDone fun _ _ => True) := by
    intro ended
    apply Triple.exit
    cases ended with
    | done _ => exact fun _ _ => trivial
    | aborted _ => exact fun _ _ => trivial
  apply Triple.of_start
  intro start holds
  have frame : Triple (· = start) (runProtected scene.world mainBody clauses elseBody) anyEvent
      (fun _ => Agrees start (protectedNames mainBody clauses elseBody blocked)) :=
    runProtected_frame mainBody clauses elseBody blocked start
  have first : Triple (· = start) (runProtected scene.world mainBody clauses elseBody)
      (scene.Right recorded)
      (fun _ => Agrees start (protectedNames mainBody clauses elseBody blocked)) := by
    apply (inner.also frame).weaken
    · rintro s rfl
      exact ⟨holds, rfl⟩
    · exact fun _ _ ended => ended.2
  rw [run]
  apply Triple.settle first
  intro ended
  by_cases empty : ensureBody = []
  · subst empty
    rw [runList, bind_of_pure]
    exact (exits ended).weakenPre fun _ _ => trivial
  · have after := ensureSound.weakenPre
      fun s (agrees : Agrees start (protectedNames mainBody clauses elseBody blocked) s) =>
        holds.of_spares (spares empty holds.fine) agrees
    exact Triple.bindDone after fun _ => exits ended

set_option linter.unusedSectionVars false in
mutual

/-- A run of a node from a store on which the facts hold executes recorded calls rightly, and the
facts after the node hold when it completes. -/
theorem walk_sound : ∀ (node : Node) (stmt position blocked : Bool) (env : Env),
    nodes node blocked ⊆ scene.all →
    Owns recorded (callIdsIn (nodes node blocked))
      (walk scene.index scene.coarse node stmt position blocked env).2 →
    Triple (scene.Holds env.facts) (run scene.world node) (scene.Right recorded)
      (onDone fun _ => scene.Holds
        (walk scene.index scene.coarse node stmt position blocked env).1.facts)
  | .localRead _, _, _, _, env, _, _ => by
      rw [run, walk]
      exact Triple.read fun _ => id
  | .variableRead, _, _, _, env, _, _ => by
      rw [run, walk]
      exact Triple.choose fun _ _ _ => id
  | .constantRead _, _, _, _, env, _, _ => by
      rw [run, walk]
      exact Triple.either (Triple.halt fun _ _ => trivial) (Triple.pure fun _ => id)
  | .nilLit, _, _, _, env, _, _ => by
      rw [run, walk]
      exact Triple.pure fun _ => id
  | .leaf, _, _, _, env, _, _ => by
      rw [run, walk]
      exact Triple.choose fun _ _ _ => id
  | .localWrite name value, stmt, position, blocked, env, sub, owns => by
      rw [nodes] at sub owns
      rw [walk] at owns
      have inner := walk_sound value false (stmt && position) blocked env
        (List.cons_subset.mp sub).2 owns
      rw [run, walk]
      exact Triple.bindDone inner fun value => setLocal_holds name value
  | .localOpWrite name value, stmt, position, blocked, env, sub, owns => by
      rw [nodes] at sub owns
      rw [walk] at owns
      have whole := List.cons_subset.mp sub
      have valued := regular.valued _ whole.1 value List.mem_cons_self
      have inner := walk_sound value false (stmt && position) blocked env whole.2 owns
      rw [run, walk]
      apply Triple.either
      · apply Triple.read
        intro s holds
        exact (holds.afterNode regular whole.2 fun _ =>
          early_of_not_void valued blocked).of_narrower (Narrower.kill _ name)
      · apply Triple.bindDone inner
        intro _
        apply Triple.either (Triple.halt fun _ _ => trivial)
        have chosen : Triple
            (scene.Holds (walk scene.index scene.coarse value false (stmt && position) blocked
              env).1.facts) (someValue : Run V V) (scene.Right recorded)
            (onDone fun _ => scene.Holds (walk scene.index scene.coarse value false
              (stmt && position) blocked env).1.facts) :=
          Triple.choose fun _ _ _ => id
        exact Triple.bindDone chosen fun value => setLocal_holds name value
  | .multiWrite targets value, stmt, position, blocked, env, sub, owns => by
      rw [nodes] at sub owns
      rw [walk] at owns
      have inner := walk_sound value false (stmt && position) blocked env
        (List.cons_subset.mp sub).2 owns
      rw [run, walk]
      exact Triple.bindDone inner fun value =>
        Triple.either (Triple.halt fun _ _ => trivial) (setLocals_holds targets value)
  | .call id receiver method args safeNav, _, _, blocked, env, sub, owns => by
      rw [nodes, List.cons_subset, List.append_subset] at sub
      rw [nodes, callIdsIn_cons, callIdsIn_append, walk] at owns
      -- The receiver is walked before the call is recorded.
      have inOrder := owns.perm (List.perm_append_comm_assoc _ _ _)
      have inArgs := walkList_within scene.index scene.coarse args false false blocked
        (walkOpt scene.index scene.coarse receiver blocked env).1
      have isCall := useOf_within id receiver safeNav
        (walkOpt scene.index scene.coarse receiver blocked env).1.facts
      have callee := walkOpt_sound receiver blocked env sub.2.1
        (inOrder.left (isCall.append inArgs))
      have afterReceiver := inOrder.right (walkOpt_within _ _ receiver _ _)
      have rest := walkList_sound args false false blocked _ sub.2.2 (afterReceiver.right isCall)
      have own := (afterReceiver.left inArgs).covers id (List.mem_singleton_self id)
      have both := (callee.alsoDone (runOpt_read receiver)).weakenPre
        fun s (holds : scene.Holds env.facts s) => ⟨holds, trivial⟩
      rw [run, walk]
      apply Triple.bindDone both
      intro value
      apply Triple.either
      · apply Triple.assuming
        intro _
        apply Triple.pure
        rintro s ⟨holds, _⟩
        apply Scene.Holds.of_narrower ?_ (Narrower.killNarrowed _ _).narrower
        exact holds.afterList regular sub.2.2 nofun
      · apply Triple.assuming
        intro _
        apply Triple.bindDone (recordCall_holds own)
        intro _
        apply Triple.bindDone rest
        intro values
        exact (answerCall_holds value method values).weakenDone fun _ _ holds =>
          holds.of_narrower (Narrower.killNarrowed _ _).narrower
  | .logical isAnd left right, _, _, blocked, env, sub, owns => by
      rw [nodes, List.cons_subset, List.append_subset] at sub
      rw [nodes, callIdsIn_cons, callIdsIn_append, walk] at owns
      simp only [Node.callId, List.nil_append] at owns
      have first := walk_sound left false false blocked env sub.2.1
        (owns.left (walk_within _ _ right _ _ _ _))
      have second := walk_sound right false false blocked _ sub.2.2
        (owns.right (walk_within _ _ left _ _ _ _))
      rw [run, walk]
      apply Triple.bindDone first
      intro value
      apply Triple.either
      · exact Triple.assuming fun _ => second.weakenDone fun _ _ holds =>
          holds.of_narrower (Narrower.killNarrowed _ _).narrower
      · apply Triple.assuming
        intro _
        apply Triple.pure
        intro s holds
        apply Scene.Holds.of_narrower ?_ (Narrower.killNarrowed _ _).narrower
        exact holds.afterNode regular sub.2.2 nofun
  | .cond predicate thenBody elseBody isUnless, stmt, position, blocked, env, sub, owns => by
      have whole := sub
      rw [nodes, List.cons_subset, List.append_subset, List.append_subset] at whole
      rw [nodes, callIdsIn_cons, callIdsIn_append, callIdsIn_append, walk] at owns
      simp only [Node.callId, List.nil_append] at owns
      have inThen := walkList_within scene.index scene.coarse thenBody true (stmt && position)
        blocked
      have inElse := walkList_within scene.index scene.coarse elseBody true (stmt && position)
        blocked
      have branches := owns.right (walk_within _ _ predicate _ _ _ _)
      have first := walk_sound predicate false false blocked env whole.2.1
        (owns.left ((inThen _).append (inElse _)))
      have thenSound := walkList_sound thenBody true (stmt && position) blocked _ whole.2.2.1
        (branches.left (inElse _))
      have elseSound := walkList_sound elseBody true (stmt && position) blocked _ whole.2.2.2
        (branches.right (inThen _))
      rw [walk]
      exact cond_sound truthful regular sheltered (stmt && position) sub first thenSound elseSound
  | .case_ subject branches elseBody, _, position, blocked, env, sub, owns => by
      rw [nodes, List.cons_subset, List.append_subset, List.append_subset] at sub
      rw [nodes, callIdsIn_cons, callIdsIn_append, callIdsIn_append, walk] at owns
      simp only [Node.callId, List.nil_append] at owns
      have inBranches := walkBranches_within scene.index scene.coarse branches
      have inElse := walkList_within scene.index scene.coarse elseBody true position blocked
      have first := walkOpt_sound subject blocked env sub.2.1
        (owns.left ((inBranches _ _ _ _).append (inElse _)))
      have later := owns.right (walkOpt_within _ _ subject _ _)
      have otherwise := lastOf_done (walkList_sound elseBody true position blocked _ sub.2.2.2
        (later.right (inBranches _ _ _ _)))
      have both := (first.alsoDone (runOpt_read subject)).weakenPre
        fun s (holds : scene.Holds env.facts s) => ⟨holds, trivial⟩
      rw [run, walk]
      apply Triple.bindDone both
      intro value
      have clauses := walkBranches_sound branches _ position blocked _ value sub.2.2.1
        (later.left (inElse _)) (fun name mem => ⟨(mem_caseSubject mem).2, fun constant body =>
          Scene.Tests.of_case sub.1 (mem_caseSubject mem).1⟩) otherwise
      apply clauses.weaken
      · rintro s ⟨holds, read⟩
        exact ⟨holds, fun name mem => read name (mem_caseSubject mem).1⟩
      · intro e s ended
        cases e with
        | aborted _ => trivial
        | done _ =>
            rcases ended with ⟨edge, mem, holds⟩
            apply joinCase_holds holds
            rw [List.map_append]
            exact mem
  | .beginRescue mainBody clauses elseBody ensureBody, _, position, blocked, env, sub, owns => by
      rw [nodes, List.cons_subset, List.append_subset, List.append_subset,
        List.append_subset] at sub
      rw [nodes, callIdsIn_cons, callIdsIn_append, callIdsIn_append, callIdsIn_append,
        walk] at owns
      simp only [Node.callId, List.nil_append] at owns
      have inClauses := walkClauses_within scene.index scene.coarse clauses position blocked
      have inElse := walkList_within scene.index scene.coarse elseBody true position blocked
      have inEnsure := walkList_within scene.index scene.coarse ensureBody true position blocked
      have keep := sheltered.parts _ _ _ _ _ sub.1
      have bound := regular.settled.rescued _ sub.1
      have afterMain := owns.right (walkList_within _ _ mainBody _ _ _ _)
      have afterClauses := afterMain.right (inClauses _)
      have mainSound := walkList_sound mainBody true position blocked
        { env with facts := env.facts.killAll (boundNames clauses) } sub.2.1
        (owns.left ((inClauses _).append ((inElse _).append (inEnsure _))))
      have clausesSound := walkClauses_sound clauses position blocked _ _ sub.2.2.1
        (afterMain.left ((inElse _).append (inEnsure _))) keep.2.1 bound
      have elseSound := walkList_sound elseBody true position blocked _ sub.2.2.2.1
        (afterClauses.left (inEnsure _))
      have ensureSound := walkList_sound ensureBody true position blocked _ sub.2.2.2.2
        (afterClauses.right (inElse _))
      have mainCalm : Busy clauses ∨ ensureBody ≠ [] →
          earlyList scene.index scene.coarse mainBody blocked = false := by
        intro follows
        by_contra isEarly
        have alone := keep.1 (Bool.eq_true_of_not_eq_false isEarly)
        rcases follows with busy | ensures
        · exact alone.1 busy
        · exact ensures alone.2
      have elseCalm : ensureBody ≠ [] →
          earlyList scene.index scene.coarse elseBody blocked = false := by
        intro ensures
        by_contra isEarly
        exact ensures (keep.2.2 (Bool.eq_true_of_not_eq_false isEarly))
      have inner := runProtected_right blocked mainSound clausesSound
        (elseSound.weakenDone fun _ _ _ => trivial)
        (fun busy fine => walkStmts_spares regular mainBody position blocked _ sub.2.1
          (mainCalm (.inl busy)) fine)
        (fun follows fine => (walkClauses_spares regular clauses position blocked _ sub.2.2.1
          (calm_of_keep keep.2.1 (.inl follows)) fine).narrower)
      have begun := inner.weakenPre fun s (holds : scene.Holds env.facts s) =>
        holds.of_narrower (Narrower.killAll _ (boundNames clauses)).narrower
      have whole := begin_sound blocked begun
        (ensureSound.weakenDone fun _ _ _ => trivial) (by
          intro ensures fine
          have bare := Narrower.killAll env.facts (boundNames clauses)
          have fineStart := fine.of_narrower bare.narrower
          have main := walkStmts_spares regular mainBody position blocked
            { env with facts := env.facts.killAll (boundNames clauses) } sub.2.1
            (mainCalm (.inr ensures)) fineStart
          have fineMain := fineStart.of_narrower main.narrower
          have rescues := walkClauses_spares regular clauses position blocked _ sub.2.2.1
            (calm_of_keep keep.2.1 (.inr ensures)) fineMain
          have others := walkStmts_spares regular elseBody position blocked _ sub.2.2.2.1
            (elseCalm ensures) (fineMain.of_narrower rescues.narrower)
          apply (others.trans (rescues.trans (main.trans bare))).mono
          intro name mem
          simp only [protectedNames, List.mem_append] at mem ⊢
          rcases mem with inElse | inClauses | inMain | isBound
          · exact .inr inElse
          · exact .inl (.inr inClauses)
          · exact .inl (.inl (.inr inMain))
          · exact .inl (.inl (.inl isBound)))
      rw [walk]
      exact whole.weakenDone fun _ _ _ name className narrowed =>
        absurd narrowed (Narrower.join_ne _ _ name className)
  | .ret values, stmt, _, blocked, env, sub, owns => by
      rw [nodes] at sub owns
      rw [walk] at owns
      rw [run]
      cases stmt with
      | true =>
          have inner := walkList_sound values false false blocked env
            (List.cons_subset.mp sub).2 owns
          exact Triple.bindDone inner fun _ => Triple.halt fun _ _ => trivial
      | false =>
          simp only [callIdsIn_cons, Node.callId, List.nil_append, Bool.false_eq_true,
            ↓reduceIte] at owns
          have silent : Triple (scene.Holds env.facts) (runList scene.world values)
              (scene.Right recorded) fun _ _ => True :=
            (runList_right owns).weakenPre fun _ _ => trivial
          exact Triple.bind silent (fun _ => Triple.halt fun _ _ => trivial) fun _ _ _ => trivial
  | .jump values, _, position, blocked, env, sub, owns => by
      rw [nodes] at sub owns
      rw [walk] at owns
      have inner := walkList_sound values true position blocked env
        (List.cons_subset.mp sub).2 owns
      rw [run]
      exact Triple.bindDone inner fun _ => Triple.halt fun _ _ => trivial
  | .jumpLeaf, _, _, _, _, _, _ => by
      rw [run]
      exact Triple.halt fun _ _ => trivial

theorem walkOpt_sound : ∀ (node : Option Node) (blocked : Bool) (env : Env),
    nodesOpt node blocked ⊆ scene.all →
    Owns recorded (callIdsIn (nodesOpt node blocked))
      (walkOpt scene.index scene.coarse node blocked env).2 →
    Triple (scene.Holds env.facts) (runOpt scene.world node) (scene.Right recorded)
      (onDone fun _ => scene.Holds
        (walkOpt scene.index scene.coarse node blocked env).1.facts)
  | none, _, _, _, _ => by
      rw [runOpt, walkOpt]
      exact Triple.pure fun _ => id
  | some node, blocked, env, sub, owns => by
      rw [nodesOpt] at sub owns
      rw [walkOpt] at owns ⊢
      rw [runOpt]
      exact Triple.bindDone (walk_sound node false false blocked env sub owns) fun _ =>
        Triple.pure fun _ => id

theorem walkList_sound : ∀ (list : List Node) (stmt position blocked : Bool) (env : Env),
    nodesList list blocked ⊆ scene.all →
    Owns recorded (callIdsIn (nodesList list blocked))
      (walkList scene.index scene.coarse list stmt position blocked env).2 →
    Triple (scene.Holds env.facts) (runList scene.world list) (scene.Right recorded)
      (onDone fun _ => scene.Holds
        (walkList scene.index scene.coarse list stmt position blocked env).1.facts)
  | [], _, _, _, _, _, _ => by
      rw [runList, walkList]
      exact Triple.pure fun _ => id
  | node :: rest, stmt, position, blocked, env, sub, owns => by
      rw [nodesList, List.append_subset] at sub
      rw [nodesList, callIdsIn_append, walkList] at owns
      have first := walk_sound node stmt position blocked env sub.1
        (owns.left (walkList_within _ _ rest _ _ _ _))
      have others := walkList_sound rest stmt position blocked _ sub.2
        (owns.right (walk_within _ _ node _ _ _ _))
      rw [runList, walkList]
      apply Triple.bindDone first
      intro _
      exact Triple.bindDone others fun _ => Triple.pure fun _ => id

theorem walkBranches_sound : ∀ (branches : List Branch) (names : Option Text × Option Text)
    (position blocked : Bool) (env : Env) (value : Option V) {otherwise : Run V V}
    {elseEdge : Facts},
    nodesBranches branches blocked ⊆ scene.all →
    Owns recorded (callIdsIn (nodesBranches branches blocked))
      (walkBranches scene.index scene.coarse branches names position blocked env).2 →
    (∀ name ∈ names.1, name ∉ scene.coarse ∧
      ∀ constant body, Branch.mk constant body ∈ branches → scene.Tests name constant) →
    Triple (scene.Holds env.facts) otherwise (scene.Right recorded)
      (onDone fun _ => scene.Holds elseEdge) →
    Triple (fun s => scene.Holds env.facts s ∧ ∀ name ∈ names.1, value = some (s name))
      (runBranches scene.world branches value otherwise) (scene.Right recorded)
      (onDone fun _ s => ∃ edge ∈ (walkBranches scene.index scene.coarse branches names position
        blocked env).1.map Prod.fst ++ [elseEdge], scene.Holds edge s)
  | [], _, _, _, _, _, _, elseEdge, _, _, _, rest => by
      rw [runBranches, walkBranches]
      apply rest.weaken (fun s start => start.1)
      intro e s ended
      cases e with
      | aborted _ => trivial
      | done _ => exact ⟨elseEdge, List.mem_singleton_self _, ended⟩
  | .mk constant body :: others, names, position, blocked, env, value, otherwise, elseEdge, sub,
      owns, tests, rest => by
      rw [nodesBranches, List.append_subset] at sub
      rw [nodesBranches, callIdsIn_append, walkBranches] at owns
      have inner := walkList_sound body true position blocked
        { env with
          facts := clauseFacts scene.index env.types names.1 names.2 constant env.facts }
        sub.1 (owns.left (walkBranches_within _ _ others _ _ _ _))
      have later := walkBranches_sound others names position blocked env value sub.2
        (owns.right (walkList_within _ _ body _ _ _ _))
        (fun name mem => ⟨(tests name mem).1, fun constant body inOthers =>
          (tests name mem).2 constant body (List.mem_cons_of_mem _ inOthers)⟩) rest
      rw [runBranches, walkBranches]
      apply Triple.bindDone (testConstant_holds constant value)
      intro result
      apply Triple.either
      · apply Triple.assuming
        intro truthy
        apply (lastOf_done inner).weaken
        · rintro s ⟨⟨holds, read⟩, answer⟩
          apply clauseFacts_holds holds
          apply clause_matched truthful sheltered _ read truthy answer
          exact fun name mem =>
            ⟨(tests name mem).1, (tests name mem).2 constant body List.mem_cons_self⟩
        · intro e s ended
          cases e with
          | aborted _ => trivial
          | done _ => exact ⟨_, List.mem_cons_self, ended⟩
      · apply Triple.assuming
        intro _
        apply later.weaken (fun s start => start.1)
        intro e s ended
        cases e with
        | aborted _ => trivial
        | done _ =>
            rcases ended with ⟨edge, mem, holds⟩
            exact ⟨edge, List.mem_cons_of_mem _ mem, holds⟩

theorem walkClauses_sound : ∀ (clauses : List Clause) (position blocked : Bool) (env : Env)
    (followed : Prop), nodesClauses clauses blocked ⊆ scene.all →
    Owns recorded (callIdsIn (nodesClauses clauses blocked))
      (walkClauses scene.index scene.coarse clauses position blocked env).2 →
    ClausesKeep scene.index scene.coarse blocked followed clauses →
    (∀ name ∈ boundNames clauses, name ∈ scene.coarse) →
    Triple (fun s => Busy clauses → scene.Holds env.facts s) (runClauses scene.world clauses)
      (scene.Right recorded) (onDone fun _ _ => True)
  | [], _, _, _, _, _, _, _, _ => by
      rw [runClauses]
      exact Triple.halt fun _ _ => trivial
  | .mk within boundName exceptions body :: rest, position, blocked, env, followed, sub, owns,
      keep, bound => by
      rw [nodesClauses, List.append_subset, List.append_subset] at sub
      rw [nodesClauses, callIdsIn_append, callIdsIn_append, walkClauses] at owns
      have afterTests := owns.right (walkList_within _ _ exceptions _ _ _ _)
      have tests := walkList_sound exceptions true position (blocked || within) env sub.1
        (owns.left ((walkList_within _ _ body _ _ _ _).append (walkClauses_within _ _ rest _ _ _)))
      have inner := walkList_sound body true position (blocked || within) _ sub.2.1
        (afterTests.left (walkClauses_within _ _ rest _ _ _))
      have later := walkClauses_sound rest position blocked _ followed sub.2.2
        (afterTests.right (walkList_within _ _ body _ _ _ _)) keep.2
        (fun name mem => bound name (boundNames_subset _ rest mem))
      rw [runClauses]
      by_cases busy : Busy (.mk within boundName exceptions body :: rest)
      · apply Triple.bindDone (tests.weakenPre fun s start => start busy)
        intro _
        apply Triple.either
        · apply Triple.bindDone (bindException_holds fun name mem =>
            bound name (mem_boundNames_cons mem rest))
          intro _
          exact (lastOf_done inner).weakenDone fun _ _ _ => trivial
        · apply later.weakenPre
          intro s holds busyRest
          have calm := keep.1 (.inl busyRest) _ List.mem_cons_self
          exact holds.afterList regular sub.2.1 fun _ => ⟨rfl, calm.2⟩
      · have idle : exceptions = [] ∧ body = [] ∧ ¬Busy rest := idle_of_not_busy busy
        rcases idle with ⟨rfl, rfl, idleRest⟩
        rw [runList, bind_of_pure]
        apply Triple.either
        · apply (Triple.bindDone bindException_quiet _).weakenPre fun _ _ => trivial
          intro _
          exact Triple.bindDone (Triple.pure fun _ => id) fun _ => Triple.pure fun _ => id
        · exact later.weakenPre fun s _ busyRest => absurd busyRest idleRest

end

end Sound

end Rigor.Infer.Narrowing
