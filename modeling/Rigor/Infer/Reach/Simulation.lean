import Rigor.Infer.Reach.Transparent

/-!
# Simulation of the memoized run

One lemma for each call of a program, and from them the whole run by induction on its fuel.
-/

namespace Rigor.Infer.Reach

variable {Out Dead : Type} {code : Code Out Dead} {ast : Ast}

/-! ## The flag -/

theorem noteTest_wrapped {typer : Typer Out Dead} (stack : Nat) (key : Text)
    (wrapped : typer.wrapped = true) : (typer.noteTest stack key).wrapped = true := by
  unfold Typer.noteTest
  split
  · split
    · simp [wrapped]
    · exact wrapped
  · exact wrapped

theorem finishReach_wrapped {typer : Typer Out Dead} (stack : Nat) (dead : Option (DeadSet Dead))
    (query : Query) (seen : List Text) (out : Out) :
    (typer.finishReach ast stack dead query seen out).wrapped = typer.wrapped := by
  unfold Typer.finishReach
  split
  · simp only [Typer.store]
    split <;> rfl
  · rfl

/-- The flag stays up. -/
theorem execMemo_wrapped {fuel stack : Nat} {scanning : Bool} {Answer : Type}
    {prog : Prog Out Dead scanning Answer} {base own : List Text} {typer next : Typer Out Dead}
    {answer : Answer}
    (ran : execMemo code ast stack fuel prog base own typer = some (next, answer))
    (wrapped : typer.wrapped = true) : next.wrapped = true := by
  induction fuel generalizing scanning Answer base own typer next with
  | zero => simp [execMemo] at ran
  | succ fuel inductionHypothesis =>
      cases prog with
      | ret answer' =>
          obtain ⟨rfl, _⟩ := Prod.mk.inj (Option.some.inj ran)
          exact wrapped
      | len continue_ => exact inductionHypothesis ran wrapped
      | test key continue_ => exact inductionHypothesis ran (noteTest_wrapped stack key wrapped)
      | visit key cap present full absent =>
          simp only [execMemo] at ran
          split at ran
          · exact inductionHypothesis ran (noteTest_wrapped stack key wrapped)
          · split at ran
            · exact inductionHypothesis ran (noteTest_wrapped stack key wrapped)
            · exact inductionHypothesis ran (noteTest_wrapped stack key wrapped)
      | pop continue_ => exact inductionHypothesis ran wrapped
      | reach query continue_ =>
          simp only [execMemo] at ran
          split at ran
          case h_1 entry found looked =>
              have same := congrArg (fun result => result.2.wrapped) looked
              exact inductionHypothesis ran (same.symm.trans wrapped)
          case h_2 missed looked =>
              have same := congrArg (fun result => result.2.wrapped) looked
              have missedWrapped : missed.wrapped = true := same.symm.trans wrapped
              obtain ⟨⟨done, out⟩, body, rest⟩ := Option.bind_eq_some_iff.mp ran
              have pushed : (missed.pushReach stack).wrapped = true := by
                simp only [Typer.pushReach, missedWrapped, Bool.true_or]
              have doneWrapped := inductionHypothesis body pushed
              refine inductionHypothesis rest ?_
              exact (finishReach_wrapped stack _ query _ out).trans doneWrapped
      | truthy pred continue_ =>
          simp only [execMemo] at ran
          split at ran
          · exact inductionHypothesis ran wrapped
          · split at ran
            · exact inductionHypothesis ran wrapped
            · obtain ⟨⟨done, out⟩, folded, rest⟩ := Option.bind_eq_some_iff.mp ran
              have doneWrapped : done.wrapped = true := inductionHypothesis folded wrapped
              exact inductionHypothesis rest doneWrapped
      | dead continue_ =>
          simp only [execMemo] at ran
          split at ran
          · exact inductionHypothesis ran wrapped
          · obtain ⟨⟨done, contents⟩, scanned, rest⟩ := Option.bind_eq_some_iff.mp ran
            have doneWrapped : done.wrapped = true := inductionHypothesis scanned wrapped
            exact inductionHypothesis rest doneWrapped
      | publish isScan contents continue_ => exact inductionHypothesis ran wrapped

/-- A run that ends without a wrap began without one. -/
theorem execMemo_noWrap {fuel stack : Nat} {scanning : Bool} {Answer : Type}
    {prog : Prog Out Dead scanning Answer} {base own : List Text} {typer next : Typer Out Dead}
    {answer : Answer}
    (ran : execMemo code ast stack fuel prog base own typer = some (next, answer))
    (noWrap : next.wrapped = false) : typer.wrapped = false := by
  cases wrapped : typer.wrapped with
  | false => rfl
  | true =>
      rw [execMemo_wrapped ran wrapped] at noWrap
      exact absurd noWrap (by simp)

/-! ## Frames and entries of a computation -/

section Frames

variable {stack : Nat} {typer : Typer Out Dead}

theorem Grows.reach {seen stamp : Nat} {tested : List Nat} {folding : List TruthyKey}
    {outer more : List MemoFrame} (grows : Grows (.reach seen stamp tested folding :: outer) more) :
    ∃ tested' folding', more = .reach seen stamp tested' folding' :: outer := by
  cases more with
  | nil => exact grows.elim
  | cons frame outer' =>
      obtain ⟨growsFrame, rfl⟩ := grows
      cases frame with
      | barrier => exact growsFrame.elim
      | reach seen' stamp' tested' folding' =>
          obtain ⟨rfl, rfl, _⟩ := growsFrame
          exact ⟨tested', folding', rfl⟩

theorem Grows.barrier {outer more : List MemoFrame} (grows : Grows (.barrier :: outer) more) :
    more = .barrier :: outer := by
  cases more with
  | nil => exact grows.elim
  | cons frame outer' =>
      obtain ⟨growsFrame, rfl⟩ := grows
      cases frame with
      | barrier => rfl
      | reach seen stamp tested folding => exact growsFrame.elim

theorem Inv.pushReach (inv : Inv code stack typer)
    (noWrap : (typer.pushReach stack).wrapped = false) : Inv code stack (typer.pushReach stack) := by
  have noAlias : typer.frames.nextStamp = u32Max →
      typer.frames.frames.any MemoFrame.isReach = false := by
    intro full
    simpa [full] using (Bool.or_eq_false_iff.mp noWrap).2
  refine ⟨inv.wf, inv.keys, inv.frames.pushReach stack noAlias, ?_, inv.entries, inv.events⟩
  obtain ⟨stamp, frames⟩ := MemoFrames.pushReach_frames typer.frames stack
  intro seen stamp' tested folding member
  simp only [Typer.pushReach] at member
  rw [frames] at member
  rcases List.mem_cons.mp member with same | member
  · obtain ⟨rfl, _, rfl, _⟩ := MemoFrame.reach.inj same
    exact ⟨rfl, fun id member => absurd member List.not_mem_nil⟩
  · exact inv.framesOn seen stamp' tested folding member

theorem Inv.pushBarrier (inv : Inv code stack typer) :
    Inv code stack { typer with frames := typer.frames.pushBarrier } := by
  refine ⟨inv.wf, inv.keys, inv.frames.pushBarrier, ?_, inv.entries, inv.events⟩
  intro seen stamp tested folding member
  rcases List.mem_cons.mp member with same | member
  · exact absurd same (by simp)
  · exact inv.framesOn seen stamp tested folding member

theorem Inv.pop (inv : Inv code stack typer) :
    Inv code stack { typer with frames := typer.frames.pop } :=
  ⟨inv.wf, inv.keys, inv.frames.pop,
    fun seen stamp tested folding member =>
      inv.framesOn seen stamp tested folding (List.mem_of_mem_tail member),
    inv.entries, inv.events⟩

theorem sameDead_trans {first second third : Option (DeadSet Dead)}
    (left : sameDead first second = true) (right : sameDead second third = true) :
    sameDead first third = true := by
  unfold sameDead at left right ⊢
  rw [beq_iff_eq] at left right ⊢
  exact left.trans right

theorem sameDead_symm {first second : Option (DeadSet Dead)}
    (same : sameDead first second = true) : sameDead second first = true := by
  unfold sameDead at same ⊢
  rw [beq_iff_eq] at same ⊢
  exact same.symm

/-- A stored answer keeps the invariant if it can be repeated. -/
theorem Inv.store (inv : Inv code stack typer) {dead : Option (DeadSet Dead)} {query : Query}
    {seen : List Text} {tested : List Nat} {folding : List TruthyKey} {out : Out}
    (known : Known typer.memo.keys tested)
    (stable : sameDead dead (typer.world.currentDead ast) = true →
      Stable code ast typer.world (Holds typer.memo.keys tested) folding seen []
        (code.body ast query) out) :
    Inv code stack (typer.store ast dead query seen tested folding out) := by
  unfold Typer.store
  split
  case isFalse => exact inv
  case isTrue both =>
      obtain ⟨same, valid⟩ := Bool.and_eq_true_iff.mp both
      obtain ⟨sameAst, sameMemo⟩ := Bool.and_eq_true_iff.mp valid
      have sameAst : typer.memo.ast = ast := beq_iff_eq.mp sameAst
      refine ⟨inv.wf, inv.keys, inv.frames, inv.framesOn, fun key entry member => ?_, inv.events⟩
      by_cases here : key = (query.useSpan, query.skipClassGuards, seen.length)
      · subst here
        simp only [Function.update_self] at member
        rcases List.mem_cons.mp member with rfl | member
        · rw [sameAst]
          exact newEntry_ok inv.keys inv.wf known
            (sameDead_symm (sameDead_trans sameMemo same)) (stable same)
        · exact inv.entries _ entry (List.mem_of_mem_take member)
      · simp only [Function.update_of_ne here] at member
        exact inv.entries key entry member

theorem store_frames {dead : Option (DeadSet Dead)} {query : Query} {seen : List Text}
    {tested : List Nat} {folding : List TruthyKey} {out : Out} :
    (typer.store ast dead query seen tested folding out).frames = typer.frames ∧
      (typer.store ast dead query seen tested folding out).world = typer.world ∧
      (typer.store ast dead query seen tested folding out).memo.keys = typer.memo.keys := by
  unfold Typer.store
  split
  · exact ⟨rfl, rfl, rfl⟩
  · exact ⟨rfl, rfl, rfl⟩

/-- The end of a computation hands its dependencies to the frame around it. -/
theorem finishReach_spec (inv : Inv code stack typer) {stamp : Nat} {tested : List Nat}
    {folding : List TruthyKey} {outer : List MemoFrame}
    (frames : typer.frames.frames = .reach stack stamp tested folding :: outer)
    {dead : Option (DeadSet Dead)} {query : Query} {seen : List Text} {out : Out}
    (stable : sameDead dead (typer.world.currentDead ast) = true →
      Stable code ast typer.world (Holds typer.memo.keys tested) folding seen []
        (code.body ast query) out) :
    Inv code stack (typer.finishReach ast stack dead query seen out) ∧
      (typer.finishReach ast stack dead query seen out).world = typer.world ∧
      (typer.finishReach ast stack dead query seen out).memo.keys = typer.memo.keys ∧
      Grows outer (typer.finishReach ast stack dead query seen out).frames.frames ∧
      ∀ seen' stamp' t f outer',
        (typer.finishReach ast stack dead query seen out).frames.frames =
          .reach seen' stamp' t f :: outer' → tested ⊆ t ∧ folding ⊆ f := by
  have known : Known typer.memo.keys tested :=
    (inv.framesOn stack stamp tested folding (frames ▸ List.mem_cons_self)).2
  have popped := inv.pop
  have poppedFrames : typer.frames.pop.frames = outer := by
    simp only [MemoFrames.pop, frames, List.tail_cons]
  obtain ⟨_, grows, recorded⟩ := record_spec popped.frames popped.framesOn known folding
  have recordInv := popped.record known folding
  have finished : typer.finishReach ast stack dead query seen out =
      Typer.store { typer with frames := typer.frames.pop.record stack tested folding }
        ast dead query seen tested folding out := by
    simp only [Typer.finishReach, frames]
  rw [finished]
  obtain ⟨storeFrames, storeWorld, storeKeys⟩ := @store_frames _ _ ast
    { typer with frames := typer.frames.pop.record stack tested folding } dead query seen tested
    folding out
  refine ⟨recordInv.store known stable, storeWorld, storeKeys, ?_, ?_⟩
  · rw [storeFrames]
    rw [poppedFrames] at grows
    exact grows
  · rw [storeFrames]
    exact recorded

end Frames

/-! ## Calls -/

section Calls

variable {stack : Nat} {scanning : Bool} {Answer : Type} {base own : List Text}
  {typer : Typer Out Dead}

/-- A call that reads nothing. -/
theorem callSimulates_skip {own' : List Text} {prog rest : Prog Out Dead scanning Answer}
    (skip : ∀ fuel on world,
      on.length = base.length → exec code ast (fuel + 1) prog on own world =
        exec code ast fuel rest on own' world) :
    CallSimulates code ast base own own' prog rest typer typer where
  ran := Ran.refl scanning typer.world
  run again := ⟨_, (skip _ base typer.world rfl).trans again⟩
  grows := Grows.refl _
  keys _ := KeysGrow.refl _
  stable _ _ conforms again := ⟨_, (skip _ _ _ conforms.stack.1).trans again⟩

/-- A test of the stack. -/
theorem callSimulates_test (inv : Inv code stack typer) {key : Text} {own' : List Text}
    {prog rest : Prog Out Dead scanning Answer}
    (noWrap : (typer.noteTest stack key).wrapped = false)
    (test : ∀ fuel on world, on.length = base.length → (key ∈ on ↔ key ∈ base) →
      exec code ast (fuel + 1) prog on own world = exec code ast fuel rest on own' world) :
    CallSimulates code ast base own own' prog rest typer (typer.noteTest stack key) := by
  obtain ⟨_, world, grows, keys, holds⟩ := noteTest_spec inv noWrap
  refine ⟨?_, ?_, grows, fun _ => keys, ?_⟩
  · rw [world]
    exact Ran.refl scanning typer.world
  · intro fuel result again
    rw [world] at again
    exact ⟨fuel + 1, (test fuel base typer.world rfl Iff.rfl).trans again⟩
  · intro seen stamp tested folding outer world on fuel result frames _ conforms again
    exact ⟨_, (test _ on world conforms.stack.1
      (conforms.stack.2 key (holds seen stamp tested folding outer frames))).trans again⟩

theorem Agree.append {tested : Text → Prop} {on base : List Text} (agree : Agree tested on base)
    (own : List Text) : Agree tested (on ++ own) (base ++ own) := by
  refine ⟨by rw [List.length_append, List.length_append, agree.1], fun key holds => ?_⟩
  rw [List.mem_append, List.mem_append, agree.2 key holds]

theorem exec_reach {fuel other : Nat} {query : Query} {rest : Out → Prog Out Dead scanning Answer}
    {world middle : World Dead} {out : Out} {result : World Dead × Answer}
    (body : exec code ast fuel (code.body ast query) (base ++ own) [] world = some (middle, out))
    (again : exec code ast other (rest out) base own middle = some result) :
    ∃ fuel', exec code ast fuel' (.reach query rest) base own world = some result := by
  refine ⟨max fuel other + 1, ?_⟩
  simp only [exec]
  rw [exec_mono (Nat.le_max_left fuel other) body, Option.bind_some]
  exact exec_mono (Nat.le_max_right fuel other) again

/-- A call of `local_reach`, from what its computation does. -/
theorem callSimulates_reach {query : Query} {out : Out}
    {rest : Out → Prog Out Dead scanning Answer} {next : Typer Out Dead}
    (body : ∃ fuel, exec code ast fuel (code.body ast query) (base ++ own) [] typer.world =
      some (next.world, out))
    (grows : Grows typer.frames.frames next.frames.frames)
    (keys : typer.frames.frames ≠ [] → KeysGrow typer.memo.keys next.memo.keys)
    (stable : ∀ {seen stamp tested folding outer},
      next.frames.frames = .reach seen stamp tested folding :: outer →
      next.world.nextId = typer.world.nextId →
      Stable code ast next.world (Holds next.memo.keys tested) folding (base ++ own) []
        (code.body ast query) out) :
    CallSimulates code ast base own own (.reach query rest) (rest out) typer next := by
  obtain ⟨fuel, ranBody⟩ := body
  refine ⟨(exec_ran (fun scanning => absurd scanning (by simp)) ranBody).weaken,
    exec_reach ranBody, grows, keys, ?_⟩
  intro seen stamp tested folding outer world on fuel result frames same conforms again
  obtain ⟨fuel, repeated⟩ := stable frames same world (on ++ own)
    ⟨conforms.future, conforms.dead, conforms.folds, conforms.stack.append own⟩
  exact exec_reach repeated again

/-- A predicate that has its answer. -/
theorem callSimulates_truthy_known (wf : typer.world.WellFormed) {pred : Nat} {hit : Option Bool}
    {rest : Option Bool → Prog Out Dead scanning Answer}
    (known : typer.world.truthyMemo (ast.address, pred) = some hit) :
    CallSimulates code ast base own own (.truthy pred rest) (rest hit) typer typer := by
  have read (fuel : Nat) (on : List Text) (world : World Dead)
      (known : world.truthyMemo (ast.address, pred) = some hit) :
      exec code ast (fuel + 1) (.truthy pred rest) on own world =
        exec code ast fuel (rest hit) on own world := by
    simp only [exec, known]
  refine ⟨Ran.refl scanning typer.world, fun again => ⟨_, (read _ _ _ known).trans again⟩,
    Grows.refl _, fun _ => KeysGrow.refl _, ?_⟩
  intro seen stamp tested folding outer world on fuel result _ _ conforms again
  have remembers := (World.Future.of_sameDead wf conforms.future conforms.dead).2
  exact ⟨_, (read _ _ _ (remembers _ _ known)).trans again⟩

/-- A predicate whose fold is running answers `None`. -/
theorem callSimulates_truthy_running (inv : Inv code stack typer) {pred : Nat}
    {rest : Option Bool → Prog Out Dead scanning Answer}
    (running : (ast.address, pred) ∈ typer.world.truthyInFlight) :
    CallSimulates code ast base own own (.truthy pred rest) (rest none) typer
      (typer.noteReentry (ast.address, pred)) := by
  have read (fuel : Nat) (on : List Text) (world : World Dead) (wf : world.WellFormed)
      (unanswered : (ast.address, pred) ∈ world.truthyInFlight ∨
        world.truthyMemo (ast.address, pred) = some none) :
      exec code ast (fuel + 1) (.truthy pred rest) on own world =
        exec code ast fuel (rest none) on own world := by
    rcases unanswered with running | landed
    · simp only [exec, wf.disjoint running, if_pos running]
    · simp only [exec, landed]
  obtain ⟨_, grows, recorded⟩ := noteReentry_spec inv (ast.address, pred)
  refine ⟨Ran.refl scanning typer.world,
    fun again => ⟨_, (read _ _ _ inv.wf (.inl running)).trans again⟩, grows,
    fun _ => KeysGrow.refl _, ?_⟩
  intro seen stamp tested folding outer world on fuel result frames _ conforms again
  have member := recorded seen stamp tested folding outer frames
  exact ⟨_, (read _ _ _ (conforms.future.wellFormed inv.wf) (conforms.folds _ member)).trans again⟩

/-- A fold that ran to completion: later only its answer is read. -/
theorem callSimulates_truthy_folded {pred fuel : Nat} {out : Option Bool}
    {rest : Option Bool → Prog Out Dead scanning Answer} {next : Typer Out Dead}
    {world : World Dead} (wf : typer.world.WellFormed)
    (unknown : typer.world.truthyMemo (ast.address, pred) = none)
    (absent : (ast.address, pred) ∉ typer.world.truthyInFlight)
    (folded : exec code ast fuel (code.fold ast pred) (base ++ own) []
      (typer.world.startFold (ast.address, pred)) = some (world, out))
    (finished : next.world = world.finishFold (ast.address, pred) out)
    (frames : next.frames.frames = typer.frames.frames)
    (keys : KeysGrow typer.memo.keys next.memo.keys) :
    CallSimulates code ast base own own (.truthy pred rest) (rest out) typer next := by
  have ran : Ran ast scanning typer.world next.world := by
    rw [finished]
    exact Ran.fold unknown absent
      (exec_ran (fun scanning => absurd scanning (by simp)) folded) out
  refine ⟨ran, ?_, by rw [frames]; exact Grows.refl _, fun _ => keys, ?_⟩
  · intro other result again
    refine ⟨max fuel other + 1, ?_⟩
    simp only [exec, unknown, if_neg absent]
    rw [exec_mono (Nat.le_max_left fuel other) folded, Option.bind_some, ← finished]
    exact exec_mono (Nat.le_max_right fuel other) again
  · intro seen stamp tested folding outer later on other result _ _ conforms again
    have answered : next.world.truthyMemo (ast.address, pred) = some out := by
      rw [finished]
      exact Function.update_self _ _ _
    have remembers :=
      (World.Future.of_sameDead (ran.future.wellFormed wf) conforms.future conforms.dead).2
    refine ⟨other + 1, ?_⟩
    simp only [exec, remembers _ _ answered]
    exact again

/-- A dead set that is there. -/
theorem callSimulates_dead_current (wf : typer.world.WellFormed) {set : DeadSet Dead}
    {rest : Dead → Prog Out Dead scanning Answer}
    (current : typer.world.currentDead ast = some set) :
    CallSimulates code ast base own own (.dead rest) (rest set.contents) typer typer := by
  have read (fuel : Nat) (on : List Text) (world : World Dead)
      (current : world.currentDead ast = some set) :
      exec code ast (fuel + 1) (.dead rest) on own world =
        exec code ast fuel (rest set.contents) on own world := by
    simp only [exec, current]
  refine ⟨Ran.refl scanning typer.world, fun again => ⟨_, (read _ _ _ current).trans again⟩,
    Grows.refl _, fun _ => KeysGrow.refl _, ?_⟩
  intro seen stamp tested folding outer world on fuel result _ _ conforms again
  have stands := (World.Future.of_sameDead wf conforms.future conforms.dead).1
  exact ⟨_, (read _ _ _ (stands.trans current)).trans again⟩

/-- A scan allocates, so no computation around it is repeated. -/
theorem callSimulates_dead_scanned {fuel : Nat} {contents : Dead}
    {rest : Dead → Prog Out Dead scanning Answer} {next : Typer Out Dead} {world : World Dead}
    (none : typer.world.currentDead ast = none)
    (scanned : exec code ast fuel (code.scan ast) (base ++ own) []
      (typer.world.startScan code.emptyDead) = some (world, contents))
    (finished : next.world = world.finishScan ast.address contents)
    (grows : Grows typer.frames.frames next.frames.frames)
    (keys : typer.frames.frames ≠ [] → KeysGrow typer.memo.keys next.memo.keys) :
    CallSimulates code ast base own own (.dead rest) (rest contents) typer next := by
  have ranScan := exec_ran (fun _ => rfl) scanned
  have ran : Ran ast scanning typer.world next.world := by
    rw [finished]
    exact Ran.scanned none ranScan contents
  refine ⟨ran, ?_, grows, keys, ?_⟩
  · intro other result again
    refine ⟨max fuel other + 1, ?_⟩
    simp only [exec, none]
    rw [exec_mono (Nat.le_max_left fuel other) scanned, Option.bind_some, ← finished]
    exact exec_mono (Nat.le_max_right fuel other) again
  · intro seen stamp tested folding outer later on other result _ same _ _
    have allocated : next.world.nextId = world.nextId + 1 := by rw [finished]; rfl
    have started : (typer.world.startScan code.emptyDead).nextId = typer.world.nextId + 1 := rfl
    have low := ranScan.future.nextId_le
    omega

theorem callSimulates_publish (inScan : typer.world.deadInFlight = true)
    (isScan : scanning = true) (contents : Dead) {rest : Prog Out Dead scanning Answer} :
    CallSimulates code ast base own own (.publish isScan contents rest) rest typer
      { typer with world := typer.world.publish contents } := by
  refine ⟨⟨.single (.publish inScan contents), rfl, rfl,
    fun notScanning => absurd (notScanning.symm.trans isScan) (by simp)⟩,
    fun again => ⟨_, (show exec code ast (_ + 1) _ _ _ _ = _ from again)⟩, Grows.refl _,
    fun _ => KeysGrow.refl _, ?_⟩
  intro seen stamp tested folding outer later on other result _ same _ _
  exact absurd same (Nat.succ_ne_self _)

/-! ## Hits and misses -/

theorem lookup_state (query : Query) (seen : List Text) :
    (typer.lookup query seen).2.world = typer.world ∧
      (typer.lookup query seen).2.frames = typer.frames ∧
      (typer.lookup query seen).2.memo.keys = typer.memo.keys :=
  ⟨rfl, rfl, rfl⟩

/-- An entry that the lookup gives can be repeated on the stack of the call. -/
theorem hit_repeats (inv : Inv code stack typer) {seen : List Text} (distinct : seen.Nodup)
    {query : Query} {entry : MemoEntry Out}
    (found : ((typer.prepare ast).lookup query seen).1 = some entry) :
    Known (typer.prepare ast).memo.keys entry.tested ∧ Unanswered entry.folding typer.world ∧
      ∀ keys wider folding, KeysGrow (typer.prepare ast).memo.keys keys → entry.tested ⊆ wider →
        entry.folding ⊆ folding →
        Stable code ast typer.world (Holds keys wider) folding seen [] (code.body ast query)
          entry.out := by
  obtain ⟨invPrepared, samePrepared, _, _, sameAst, sameSet⟩ := @prepare_spec _ _ _ ast _ _ inv
  obtain ⟨_, looked⟩ := lookup_spec invPrepared query seen
  obtain ⟨member, root, fits, live⟩ := looked entry found
  have ok := invPrepared.entries _ entry member
  rw [sameAst, samePrepared] at ok
  rw [samePrepared] at live
  obtain ⟨origin, start, wf, future, same, length, present, stable⟩ := ok.repeats
  have agree : Agree (Holds (typer.prepare ast).memo.keys entry.tested) seen start :=
    EntryOk.agree invPrepared.keys distinct ok.bits length present fits
  rw [root] at stable
  refine ⟨ok.known, live, fun keys wider folding grow subset folds world on conforms => ?_⟩
  have sameOrigin : sameDead (origin.currentDead ast) (typer.world.currentDead ast) = true :=
    sameDead_trans same sameSet
  refine stable world on ⟨Relation.ReflTransGen.trans future conforms.future,
    sameDead_trans sameOrigin conforms.dead, fun p memberFolding => conforms.folds p
      (folds memberFolding), conforms.stack.1.trans agree.1, fun key holds => ?_⟩
  exact (conforms.stack.2 key (holds.grow grow subset)).trans (agree.2 key holds)

/-- Where the tests go as before and the folds are as before, the entry answers. -/
theorem Stable.run {world : World Dead} {tested : Text → Prop} {folding : List TruthyKey}
    {seen : List Text} {prog : Prog Out Dead scanning Answer} {answer : Answer}
    (stable : Stable code ast world tested folding seen [] prog answer)
    (live : Unanswered folding world) :
    ∃ fuel, exec code ast fuel prog seen [] world = some (world, answer) :=
  stable world seen ⟨Relation.ReflTransGen.refl, World.sameDead_self _, live, rfl, fun _ _ => Iff.rfl⟩

theorem callSimulates_hit (inv : Inv code stack typer) (distinct : (base ++ own).Nodup)
    {query : Query} {entry : MemoEntry Out} {found : Typer Out Dead}
    {rest : Out → Prog Out Dead scanning Answer}
    (looked : (typer.prepare ast).lookup query (base ++ own) = (some entry, found)) :
    let next := Typer.note
      { found with frames := found.frames.record stack entry.tested entry.folding }
      ⟨ast, query, base ++ own, typer.world, entry.out⟩
    Inv code stack next ∧
      CallSimulates code ast base own own (.reach query rest) (rest entry.out) typer next := by
  intro next
  obtain ⟨known, live, repeats⟩ := hit_repeats inv distinct (congrArg Prod.fst looked)
  obtain ⟨invPrepared, samePrepared, framesPrepared, keysPrepared, _⟩ :=
    @prepare_spec _ _ _ ast _ _ inv
  have invFound := (lookup_spec invPrepared query (base ++ own)).1
  obtain ⟨sameWorld, sameFrames, sameKeys⟩ :=
    @lookup_state _ _ (typer.prepare ast) query (base ++ own)
  rw [looked] at invFound sameWorld sameFrames sameKeys
  have foundWorld : found.world = typer.world := sameWorld.trans samePrepared
  have foundKnown : Known found.memo.keys entry.tested := by rwa [sameKeys]
  have foundGrow : KeysGrow (typer.prepare ast).memo.keys found.memo.keys := by
    rw [sameKeys]
    exact KeysGrow.refl _
  obtain ⟨_, grows, recorded⟩ :=
    record_spec invFound.frames invFound.framesOn foundKnown entry.folding
  have body := (repeats _ _ _ foundGrow (List.Subset.refl _) (List.Subset.refl _)).run live
  refine ⟨(invFound.record foundKnown entry.folding).note ?_, callSimulates_reach ?_ ?_ ?_ ?_⟩
  · obtain ⟨fuel, ran⟩ := body
    exact ⟨fuel, typer.world, ran⟩
  · have same : next.world = typer.world := foundWorld
    rw [same]
    exact body
  · have foundFrames : found.frames.frames = typer.frames.frames :=
      (congrArg MemoFrames.frames sameFrames).trans framesPrepared
    rw [foundFrames] at grows
    exact grows
  · intro nonempty
    exact (keysPrepared nonempty).trans foundGrow
  · intro seen stamp tested folding outer frames _
    have same : next.world = typer.world := foundWorld
    obtain ⟨subset, folds⟩ := recorded seen stamp tested folding outer frames
    rw [same]
    exact repeats _ _ _ foundGrow subset folds

theorem callSimulates_miss (inv : Inv code stack typer) {query : Query}
    {missed done : Typer Out Dead} {out : Out} {rest : Out → Prog Out Dead scanning Answer}
    (looked : (typer.prepare ast).lookup query (base ++ own) = (none, missed))
    (body : Simulates code ast stack (base ++ own) [] (code.body ast query)
      (missed.pushReach stack) done out) :
    let next := Typer.note
      (done.finishReach ast stack (typer.world.currentDead ast) query (base ++ own) out)
      ⟨ast, query, base ++ own, typer.world, out⟩
    Inv code stack next ∧
      CallSimulates code ast base own own (.reach query rest) (rest out) typer next := by
  intro next
  obtain ⟨_, samePrepared, framesPrepared, keysPrepared, _⟩ := @prepare_spec _ _ _ ast _ _ inv
  obtain ⟨sameWorld, sameFrames, sameKeys⟩ :=
    @lookup_state _ _ (typer.prepare ast) query (base ++ own)
  rw [looked] at sameWorld sameFrames sameKeys
  have missedWorld : missed.world = typer.world := sameWorld.trans samePrepared
  have missedFrames : missed.frames.frames = typer.frames.frames :=
    (congrArg MemoFrames.frames sameFrames).trans framesPrepared
  obtain ⟨fuel, ran⟩ := body.run
  have start : (missed.pushReach stack).world = typer.world := missedWorld
  rw [start] at ran
  obtain ⟨stamp, pushed⟩ := MemoFrames.pushReach_frames missed.frames stack
  have grew := body.grows
  have pushedFrames : (missed.pushReach stack).frames.frames =
      .reach stack stamp [] [] :: typer.frames.frames := pushed.trans (by rw [missedFrames])
  rw [pushedFrames] at grew
  obtain ⟨tested, folding, frames⟩ := grew.reach
  have keysGrow : KeysGrow missed.memo.keys done.memo.keys :=
    body.keys (by rw [pushedFrames]; exact List.cons_ne_nil _ _)
  have quiet := (exec_ran (fun scanning => absurd scanning (by simp)) ran).quiet rfl
  have stable (same : done.world.nextId = typer.world.nextId) :
      Stable code ast done.world (Holds done.memo.keys tested) folding (base ++ own) []
        (code.body ast query) out :=
    body.stable frames (by rw [start]; exact same)
  have stored (same : sameDead (typer.world.currentDead ast) (done.world.currentDead ast) = true) :
      Stable code ast done.world (Holds done.memo.keys tested) folding (base ++ own) []
        (code.body ast query) out := by
    refine stable ?_
    rcases quiet with unallocated | ⟨none, settled⟩
    · exact unallocated
    · rw [none, sameDead, beq_iff_eq, Option.map_none, eq_comm, Option.map_eq_none_iff] at same
      exact absurd same settled
  obtain ⟨invFinished, finishedWorld, finishedKeys, finishedGrows, recorded⟩ :=
    finishReach_spec body.inv frames stored
  have nextWorld : next.world = done.world := finishedWorld
  have nextKeys : next.memo.keys = done.memo.keys := finishedKeys
  refine ⟨invFinished.note ⟨fuel, done.world, ran⟩,
    callSimulates_reach ⟨fuel, by rw [nextWorld]; exact ran⟩ finishedGrows ?_ ?_⟩
  · intro nonempty
    rw [nextKeys]
    rw [sameKeys] at keysGrow
    exact (keysPrepared nonempty).trans keysGrow
  · intro seen stamp' t f outer nextFrames same
    obtain ⟨subset, folds⟩ := recorded seen stamp' t f outer nextFrames
    rw [nextWorld] at same ⊢
    rw [nextKeys]
    exact (stable same).mono (fun key holds => holds.grow (KeysGrow.refl _) subset) folds

end Calls

/-! ## Runs -/

theorem simulates_ret {stack : Nat} {scanning : Bool} {Answer : Type} {base own : List Text}
    {typer : Typer Out Dead} (inv : Inv code stack typer) (answer : Answer) :
    Simulates code ast stack base own (.ret answer : Prog Out Dead scanning Answer) typer typer
      answer :=
  ⟨inv, ⟨1, rfl⟩, Grows.refl _, fun _ => KeysGrow.refl _, fun _ _ _ _ _ => ⟨1, rfl⟩⟩

/-- A run with the memo simulates the run without it, as long as neither the stamps nor the
ids wrap. -/
theorem execMemo_simulates {fuel stack : Nat} {scanning : Bool} {Answer : Type}
    {prog : Prog Out Dead scanning Answer} {base own : List Text} {typer next : Typer Out Dead}
    {answer : Answer} (inv : Inv code stack typer) (distinct : (base ++ own).Nodup)
    (inScan : scanning = true → typer.world.deadInFlight = true)
    (ran : execMemo code ast stack fuel prog base own typer = some (next, answer))
    (noWrap : next.wrapped = false) : Simulates code ast stack base own prog typer next answer := by
  induction fuel generalizing scanning Answer base own typer next with
  | zero => simp [execMemo] at ran
  | succ fuel inductionHypothesis =>
      cases prog with
      | ret answer' =>
          obtain ⟨rfl, rfl⟩ := Prod.mk.inj (Option.some.inj ran)
          exact simulates_ret inv answer'
      | len continue_ =>
          refine Simulates.of_call inScan (callSimulates_skip fun fuel on world length => ?_)
            (inductionHypothesis inv distinct inScan ran noWrap)
          simp only [exec, List.length_append, length]
      | test key continue_ =>
          simp only [execMemo] at ran
          have noted := execMemo_noWrap ran noWrap
          obtain ⟨invNoted, same, _⟩ := noteTest_spec inv noted
          refine Simulates.of_call inScan (callSimulates_test inv noted fun fuel on world _ same => ?_)
            (inductionHypothesis invNoted distinct (by rw [same]; exact inScan) ran noWrap)
          simp only [exec, List.mem_append, same]
      | visit key cap present full absent =>
          simp only [execMemo] at ran
          split at ran
          case isTrue held =>
              have noted := execMemo_noWrap ran noWrap
              obtain ⟨invNoted, same, _⟩ := noteTest_spec inv noted
              refine Simulates.of_call inScan (callSimulates_test inv noted
                fun fuel on world _ same => ?_)
                (inductionHypothesis invNoted distinct (by rw [same]; exact inScan) ran noWrap)
              rw [List.mem_append] at held
              simp only [exec, List.mem_append, same, if_pos held]
          case isFalse free =>
              split at ran
              case isTrue capped =>
                  have noted := execMemo_noWrap ran noWrap
                  obtain ⟨invNoted, same, _⟩ := noteTest_spec inv noted
                  refine Simulates.of_call inScan (callSimulates_test inv noted
                    fun fuel on world length same => ?_)
                    (inductionHypothesis invNoted distinct (by rw [same]; exact inScan) ran noWrap)
                  rw [List.mem_append] at free
                  rw [List.length_append] at capped
                  simp only [exec, List.mem_append, same, if_neg free, List.length_append, length,
                    if_pos capped]
              case isFalse room =>
                  have noted := execMemo_noWrap ran noWrap
                  obtain ⟨invNoted, same, _⟩ := noteTest_spec inv noted
                  have distinctPushed : (base ++ (own ++ [key])).Nodup := by
                    rw [← List.append_assoc, ← List.concat_eq_append]
                    exact distinct.concat free
                  refine Simulates.of_call inScan (callSimulates_test inv noted
                    fun fuel on world length same => ?_)
                    (inductionHypothesis invNoted distinctPushed (by rw [same]; exact inScan) ran
                      noWrap)
                  rw [List.mem_append] at free
                  rw [List.length_append] at room
                  simp only [exec, List.mem_append, same, if_neg free, List.length_append, length,
                    if_neg room]
      | pop continue_ =>
          have distinctPopped : (base ++ own.dropLast).Nodup :=
            distinct.sublist ((List.Sublist.refl base).append (List.dropLast_sublist own))
          exact Simulates.of_call inScan (callSimulates_skip fun fuel on world _ => rfl)
            (inductionHypothesis inv distinctPopped inScan ran noWrap)
      | reach query continue_ =>
          simp only [execMemo] at ran
          split at ran
          case h_1 entry found looked =>
              obtain ⟨invNext, call⟩ :=
                @callSimulates_hit _ _ _ _ _ _ _ _ _ _ inv distinct _ _ _ continue_ looked
              exact Simulates.of_call inScan call (inductionHypothesis invNext distinct
                (fun scanning => call.ran.scan.trans (inScan scanning)) ran noWrap)
          case h_2 missed looked =>
              obtain ⟨⟨done, out⟩, body, rest⟩ := Option.bind_eq_some_iff.mp ran
              have finished := execMemo_noWrap rest noWrap
              have doneNoWrap : done.wrapped = false := by
                rw [← finished]
                exact (finishReach_wrapped stack _ query _ out).symm
              have pushed := execMemo_noWrap body doneNoWrap
              have invMissed := (lookup_spec (@prepare_spec _ _ _ ast _ _ inv).1 query
                (base ++ own)).1
              rw [looked] at invMissed
              have simulates := inductionHypothesis (invMissed.pushReach pushed)
                (by rwa [List.append_nil]) (fun scanning => absurd scanning (by simp)) body doneNoWrap
              obtain ⟨invNext, call⟩ :=
                @callSimulates_miss _ _ _ _ _ _ _ _ _ _ inv _ _ _ _ continue_ looked simulates
              exact Simulates.of_call inScan call (inductionHypothesis invNext distinct
                (fun scanning => call.ran.scan.trans (inScan scanning)) rest noWrap)
      | truthy pred continue_ =>
          simp only [execMemo] at ran
          split at ran
          case h_1 hit known =>
              exact Simulates.of_call inScan (callSimulates_truthy_known inv.wf known)
                (inductionHypothesis inv distinct inScan ran noWrap)
          case h_2 unknown =>
              split at ran
              case isTrue running =>
                  exact Simulates.of_call inScan (callSimulates_truthy_running inv running)
                    (inductionHypothesis (noteReentry_spec inv _).1 distinct inScan ran noWrap)
              case isFalse absent =>
                  obtain ⟨⟨done, out⟩, folded, rest⟩ := Option.bind_eq_some_iff.mp ran
                  have finished := execMemo_noWrap rest noWrap
                  have doneNoWrap : done.wrapped = false := finished
                  have started : World.Future typer.world
                      (typer.world.startFold (ast.address, pred)) := .single (.startFold unknown)
                  have simulates := inductionHypothesis (inv.later started).pushBarrier
                    (by rwa [List.append_nil]) (fun scanning => absurd scanning (by simp)) folded
                    doneNoWrap
                  obtain ⟨fuel', foldedRun⟩ := simulates.run
                  have ranFold := exec_ran (fun scanning => absurd scanning (by simp)) foldedRun
                  have running : (ast.address, pred) ∈ done.world.truthyInFlight := by
                    rw [ranFold.folds]
                    exact List.mem_cons_self
                  have frames : done.frames.frames = .barrier :: typer.frames.frames :=
                    simulates.grows.barrier
                  have invNext := (simulates.inv.later (.single (.finishFold running out))).pop
                  have call : CallSimulates code ast base own own (.truthy pred continue_)
                      (continue_ out) typer
                      { done with
                        world := done.world.finishFold (ast.address, pred) out
                        frames := done.frames.pop } :=
                    callSimulates_truthy_folded inv.wf unknown absent foldedRun rfl
                      (by simp only [MemoFrames.pop, frames, List.tail_cons])
                      (simulates.keys (List.cons_ne_nil _ _))
                  exact Simulates.of_call inScan call (inductionHypothesis invNext distinct
                    (fun scanning => call.ran.scan.trans (inScan scanning)) rest noWrap)
      | dead continue_ =>
          simp only [execMemo] at ran
          split at ran
          case h_1 set current =>
              exact Simulates.of_call inScan (callSimulates_dead_current inv.wf current)
                (inductionHypothesis inv distinct inScan ran noWrap)
          case h_2 none =>
              obtain ⟨⟨done, contents⟩, scanned, rest⟩ := Option.bind_eq_some_iff.mp ran
              have finished := execMemo_noWrap rest noWrap
              have doneNoWrap : done.wrapped = false := finished
              have idle := World.deadInFlight_of_currentDead_eq_none none
              have started : World.Future typer.world (typer.world.startScan code.emptyDead) :=
                .single (.startScan idle code.emptyDead)
              have simulates := inductionHypothesis (inv.later started)
                (by rwa [List.append_nil]) (fun _ => rfl) scanned doneNoWrap
              obtain ⟨fuel', scannedRun⟩ := simulates.run
              have ranScan := exec_ran (fun _ => rfl) scannedRun
              have scanning : done.world.deadInFlight = true := ranScan.scan
              have invNext := simulates.inv.later
                (.single (.finishScan scanning ast.address contents))
              have call : CallSimulates code ast base own own (.dead continue_)
                  (continue_ contents) typer
                  { done with world := done.world.finishScan ast.address contents } :=
                callSimulates_dead_scanned none scannedRun rfl simulates.grows simulates.keys
              exact Simulates.of_call inScan call (inductionHypothesis invNext distinct
                (fun scanning => call.ran.scan.trans (inScan scanning)) rest noWrap)
      | publish isScan contents continue_ =>
          have scanning := inScan isScan
          exact Simulates.of_call inScan (callSimulates_publish scanning isScan contents)
            (inductionHypothesis (inv.later (.single (.publish scanning contents))) distinct inScan
              ran noWrap)

end Rigor.Infer.Reach
