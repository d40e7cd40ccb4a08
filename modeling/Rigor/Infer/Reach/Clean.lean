import Rigor.Infer.Reach.Worlds

/-!
# Clean runs

A run is clean if it never asks a predicate whose fold is in progress, and if no fold depends on the
stack below it.  What a clean run stores can be computed again from what is stored, so a clean run
answers the same after any other clean runs.
-/

namespace Rigor.Infer.Reach

variable {Out Dead : Type} {code : Code Out Dead} {ast : Ast}

/-- What a program does next from the stack and the dead set alone. -/
def localStep (contents : Dead) {scanning : Bool} {Answer : Type} (base own : List Text) :
    Prog Out Dead scanning Answer → Option (Prog Out Dead scanning Answer × List Text)
  | .len next => some (next (base ++ own).length, own)
  | .test key next => some (next (decide (key ∈ base ++ own)), own)
  | .visit key cap present full absent =>
      if key ∈ base ++ own then some (present, own)
      else if cap ≤ (base ++ own).length then some (full, own)
      else some (absent, own ++ [key])
  | .pop next => some (next, own.dropLast)
  | .dead next => some (next contents, own)
  | _ => none

/-- A run on the stack `below ++ base ++ own` whose every step is the step on `base ++ own`, and in
which no fold in progress is asked. -/
inductive Clean (code : Code Out Dead) (ast : Ast) (contents : Dead) : {Answer : Type} →
    Prog Out Dead false Answer → (below base own : List Text) → World Dead → World Dead → Answer →
    Prop
  | ret {Answer : Type} {answer : Answer} {below base own : List Text} {world : World Dead} :
      Clean code ast contents (.ret answer) below base own world world answer
  | step {Answer : Type} {answer : Answer} {prog rest : Prog Out Dead false Answer}
      {below base own own' : List Text} {world next : World Dead}
      (above : localStep contents base own prog = some (rest, own'))
      (whole : localStep contents (below ++ base) own prog = some (rest, own')) :
      Clean code ast contents rest below base own' world next answer →
      Clean code ast contents prog below base own world next answer
  | reach {Answer : Type} {answer : Answer} {query : Query}
      {rest : Out → Prog Out Dead false Answer} {out : Out} {below base own : List Text}
      {world middle next : World Dead} :
      Clean code ast contents (code.body ast query) below (base ++ own) [] world middle out →
      Clean code ast contents (rest out) below base own middle next answer →
      Clean code ast contents (.reach query rest) below base own world next answer
  | known {Answer : Type} {answer : Answer} {pred : Nat} {hit : Option Bool}
      {rest : Option Bool → Prog Out Dead false Answer} {below base own : List Text}
      {world next : World Dead} (known : world.truthyMemo (ast.address, pred) = some hit) :
      Clean code ast contents (rest hit) below base own world next answer →
      Clean code ast contents (.truthy pred rest) below base own world next answer
  | folded {Answer : Type} {answer : Answer} {pred : Nat} {out : Option Bool}
      {rest : Option Bool → Prog Out Dead false Answer} {below base own : List Text}
      {world middle next : World Dead} (unknown : world.truthyMemo (ast.address, pred) = none)
      (absent : (ast.address, pred) ∉ world.truthyInFlight) :
      Clean code ast contents (code.fold ast pred) (below ++ base ++ own) [] []
        (world.startFold (ast.address, pred)) middle out →
      Clean code ast contents (rest out) below base own
        (middle.finishFold (ast.address, pred) out) next answer →
      Clean code ast contents (.truthy pred rest) below base own world next answer

/-- A run in which every predicate that is asked is known. -/
inductive Consults (code : Code Out Dead) (ast : Ast) (contents : Dead)
    (known : TruthyKey → Option (Option Bool)) : {Answer : Type} → Prog Out Dead false Answer →
    (base own : List Text) → Answer → Prop
  | ret {Answer : Type} {answer : Answer} {base own : List Text} :
      Consults code ast contents known (.ret answer) base own answer
  | step {Answer : Type} {answer : Answer} {prog rest : Prog Out Dead false Answer}
      {base own own' : List Text} (step : localStep contents base own prog = some (rest, own')) :
      Consults code ast contents known rest base own' answer →
      Consults code ast contents known prog base own answer
  | reach {Answer : Type} {answer : Answer} {query : Query}
      {rest : Out → Prog Out Dead false Answer} {out : Out} {base own : List Text} :
      Consults code ast contents known (code.body ast query) (base ++ own) [] out →
      Consults code ast contents known (rest out) base own answer →
      Consults code ast contents known (.reach query rest) base own answer
  | known {Answer : Type} {answer : Answer} {pred : Nat} {hit : Option Bool}
      {rest : Option Bool → Prog Out Dead false Answer} {base own : List Text}
      (found : known (ast.address, pred) = some hit) :
      Consults code ast contents known (rest hit) base own answer →
      Consults code ast contents known (.truthy pred rest) base own answer

/-- What is known stays known. -/
def Within (known more : TruthyKey → Option (Option Bool)) : Prop :=
  ∀ key answer, known key = some answer → more key = some answer

/-- What is known beyond `before` follows from what is known. -/
def Closed (code : Code Out Dead) (ast : Ast) (contents : Dead)
    (before known : TruthyKey → Option (Option Bool)) : Prop :=
  ∀ pred answer, known (ast.address, pred) = some answer →
    before (ast.address, pred) = some answer ∨
      Consults code ast contents known (code.fold ast pred) [] [] answer

theorem Within.trans {known middle more : TruthyKey → Option (Option Bool)}
    (first : Within known middle) (second : Within middle more) : Within known more :=
  fun key answer found => second key answer (first key answer found)

theorem Consults.mono {contents : Dead} {known more : TruthyKey → Option (Option Bool)}
    {Answer : Type} {prog : Prog Out Dead false Answer} {base own : List Text} {answer : Answer}
    (consults : Consults code ast contents known prog base own answer) (within : Within known more) :
    Consults code ast contents more prog base own answer := by
  induction consults with
  | ret => exact .ret
  | step step _ inductionHypothesis => exact .step step inductionHypothesis
  | reach _ _ body rest => exact .reach body rest
  | known found _ inductionHypothesis => exact .known (within _ _ found) inductionHypothesis

theorem Closed.self (contents : Dead) (known : TruthyKey → Option (Option Bool)) :
    Closed code ast contents known known :=
  fun _ _ found => .inl found

/-! ## Settled worlds -/

theorem finishFold_self (world : World Dead) (key : TruthyKey) (out : Option Bool) :
    (world.finishFold key out).truthyMemo key = some out :=
  Function.update_self _ _ _

theorem finishFold_of_ne (world : World Dead) {key other : TruthyKey} (distinct : other ≠ key)
    (out : Option Bool) : (world.finishFold key out).truthyMemo other = world.truthyMemo other :=
  Function.update_of_ne distinct _ _

/-- The tree has its dead set. -/
structure Settled (ast : Ast) (set : DeadSet Dead) (world : World Dead) : Prop where
  wf : world.WellFormed
  current : world.currentDead ast = some set

section Settled

variable {set : DeadSet Dead} {world next : World Dead}

theorem Settled.startFold (settled : Settled ast set world) {key : TruthyKey}
    (unknown : world.truthyMemo key = none) : Settled ast set (world.startFold key) :=
  ⟨World.Step.wellFormed (.startFold unknown) settled.wf, settled.current⟩

theorem Settled.finishFold (settled : Settled ast set world) {key : TruthyKey}
    (running : key ∈ world.truthyInFlight) (out : Option Bool) :
    Settled ast set (world.finishFold key out) :=
  ⟨World.Step.wellFormed (.finishFold running out) settled.wf, settled.current⟩

/-- Where the tree has its dead set, answers only come in. -/
theorem exec_settled {fuel : Nat} {Answer : Type} {prog : Prog Out Dead false Answer}
    {base own : List Text} {answer : Answer} (settled : Settled ast set world)
    (ran : exec code ast fuel prog base own world = some (next, answer)) :
    Settled ast set next ∧ Within world.truthyMemo next.truthyMemo ∧
      next.truthyInFlight = world.truthyInFlight := by
  have ran := exec_ran (fun scanning => absurd scanning (by simp)) ran
  have unallocated : next.nextId = world.nextId := by
    rcases ran.quiet rfl with same | ⟨none, _⟩
    · exact same
    · rw [settled.current] at none
      exact absurd none (by simp)
  have stands := ran.future.currentDead_eq unallocated ast
  have same : sameDead (world.currentDead ast) (next.currentDead ast) = true := by
    rw [stands]
    exact World.sameDead_self _
  exact ⟨⟨ran.future.wellFormed settled.wf, stands.trans settled.current⟩,
    (World.Future.of_sameDead settled.wf ran.future same).2, ran.folds⟩

theorem exec_localStep {scanning : Bool} {Answer : Type}
    {prog rest : Prog Out Dead scanning Answer} {base own own' : List Text}
    (current : world.currentDead ast = some set)
    (step : localStep set.contents base own prog = some (rest, own')) (fuel : Nat) :
    exec code ast (fuel + 1) prog base own world = exec code ast fuel rest base own' world := by
  cases prog with
  | len next =>
      obtain ⟨rfl, rfl⟩ := Prod.mk.inj (Option.some.inj step)
      rfl
  | test key next =>
      obtain ⟨rfl, rfl⟩ := Prod.mk.inj (Option.some.inj step)
      rfl
  | visit key cap present full absent =>
      simp only [localStep] at step
      simp only [exec]
      split at step
      case isTrue held =>
          obtain ⟨rfl, rfl⟩ := Prod.mk.inj (Option.some.inj step)
          rw [if_pos held]
      case isFalse free =>
          rw [if_neg free]
          split at step
          case isTrue capped =>
              obtain ⟨rfl, rfl⟩ := Prod.mk.inj (Option.some.inj step)
              rw [if_pos capped]
          case isFalse room =>
              obtain ⟨rfl, rfl⟩ := Prod.mk.inj (Option.some.inj step)
              rw [if_neg room]
  | pop next =>
      obtain ⟨rfl, rfl⟩ := Prod.mk.inj (Option.some.inj step)
      rfl
  | dead next =>
      obtain ⟨rfl, rfl⟩ := Prod.mk.inj (Option.some.inj step)
      simp only [exec, current]
  | ret answer => exact absurd step (by simp [localStep])
  | reach query next => exact absurd step (by simp [localStep])
  | truthy pred next => exact absurd step (by simp [localStep])
  | publish isScan contents next => exact absurd step (by simp [localStep])

end Settled

/-! ## What a clean run does -/

section Runs

variable {set : DeadSet Dead} {below base own : List Text} {world next : World Dead} {Answer : Type}
  {prog : Prog Out Dead false Answer} {answer : Answer}

/-- A clean run is a run. -/
theorem Clean.exec (clean : Clean code ast set.contents prog below base own world next answer)
    (settled : Settled ast set world) :
    ∃ fuel, exec code ast fuel prog (below ++ base) own world = some (next, answer) := by
  induction clean with
  | ret => exact ⟨1, rfl⟩
  | step _ whole _ inductionHypothesis =>
      obtain ⟨fuel, ran⟩ := inductionHypothesis settled
      exact ⟨fuel + 1, (exec_localStep settled.current whole fuel).trans ran⟩
  | @reach _ _ query rest out below base own world middle next _ _ body continued =>
      obtain ⟨fuel, ranBody⟩ := body settled
      obtain ⟨other, ranRest⟩ := continued (exec_settled settled ranBody).1
      rw [← List.append_assoc] at ranBody
      refine ⟨max fuel other + 1, ?_⟩
      simp only [Reach.exec]
      rw [exec_mono (Nat.le_max_left fuel other) ranBody, Option.bind_some]
      exact exec_mono (Nat.le_max_right fuel other) ranRest
  | known known _ inductionHypothesis =>
      obtain ⟨fuel, ran⟩ := inductionHypothesis settled
      refine ⟨fuel + 1, ?_⟩
      simp only [Reach.exec, known]
      exact ran
  | @folded _ _ pred out rest below base own world middle next unknown absent _ _ fold continued =>
      obtain ⟨fuel, ranFold⟩ := fold (settled.startFold unknown)
      obtain ⟨settledMiddle, _, running⟩ := exec_settled (settled.startFold unknown) ranFold
      have inFlight : (ast.address, pred) ∈ middle.truthyInFlight := by
        rw [running]
        exact List.mem_cons_self
      obtain ⟨other, ranRest⟩ := continued (settledMiddle.finishFold inFlight out)
      rw [List.append_nil] at ranFold
      refine ⟨max fuel other + 1, ?_⟩
      simp only [Reach.exec, unknown, if_neg absent]
      rw [exec_mono (Nat.le_max_left fuel other) ranFold, Option.bind_some]
      exact exec_mono (Nat.le_max_right fuel other) ranRest

theorem Clean.settled (clean : Clean code ast set.contents prog below base own world next answer)
    (settled : Settled ast set world) :
    Settled ast set next ∧ Within world.truthyMemo next.truthyMemo ∧
      next.truthyInFlight = world.truthyInFlight := by
  obtain ⟨fuel, ran⟩ := clean.exec settled
  exact exec_settled settled ran

/-- The end of a clean fold. -/
theorem Clean.finishFold {pred : Nat} {out : Option Bool} {middle : World Dead}
    (fold : Clean code ast set.contents (code.fold ast pred) below base own
      (world.startFold (ast.address, pred)) middle out)
    (settled : Settled ast set world) (unknown : world.truthyMemo (ast.address, pred) = none)
    (absent : (ast.address, pred) ∉ world.truthyInFlight) :
    Settled ast set (middle.finishFold (ast.address, pred) out) ∧
      Within middle.truthyMemo (middle.finishFold (ast.address, pred) out).truthyMemo ∧
      Within world.truthyMemo (middle.finishFold (ast.address, pred) out).truthyMemo ∧
      (middle.finishFold (ast.address, pred) out).truthyInFlight = world.truthyInFlight := by
  obtain ⟨settledMiddle, within, running⟩ := fold.settled (settled.startFold unknown)
  have inFlight : (ast.address, pred) ∈ middle.truthyInFlight := by
    rw [running]
    exact List.mem_cons_self
  have grown := World.remembers_finishFold settledMiddle.wf inFlight out
  refine ⟨settledMiddle.finishFold inFlight out, grown, Within.trans within grown, ?_⟩
  obtain ⟨fuel, ran⟩ := fold.exec (settled.startFold unknown)
  have ranFold : Ran ast false world (middle.finishFold (ast.address, pred) out) :=
    Ran.fold unknown absent (exec_ran (fun scanning => absurd scanning (by simp)) ran) out
  exact ranFold.folds

/-- What a clean run answers follows from what is known at its end. -/
theorem Clean.consults (clean : Clean code ast set.contents prog below base own world next answer)
    (settled : Settled ast set world) :
    Consults code ast set.contents next.truthyMemo prog base own answer := by
  induction clean with
  | ret => exact .ret
  | step above _ _ inductionHypothesis => exact .step above (inductionHypothesis settled)
  | reach cleanBody cleanRest body continued =>
      obtain ⟨settledMiddle, _⟩ := cleanBody.settled settled
      obtain ⟨_, within, _⟩ := cleanRest.settled settledMiddle
      exact .reach ((body settled).mono within) (continued settledMiddle)
  | known known cleanRest inductionHypothesis =>
      obtain ⟨_, within, _⟩ := cleanRest.settled settled
      exact .known (within _ _ known) (inductionHypothesis settled)
  | folded unknown absent cleanFold cleanRest _ continued =>
      obtain ⟨settledFinished, _⟩ := cleanFold.finishFold settled unknown absent
      obtain ⟨_, within, _⟩ := cleanRest.settled settledFinished
      exact .known (within _ _ (finishFold_self _ _ _)) (continued settledFinished)

theorem Closed.finishFold {before : TruthyKey → Option (Option Bool)} {pred : Nat}
    {out : Option Bool} {middle : World Dead}
    (closed : Closed code ast set.contents before middle.truthyMemo)
    (within : Within middle.truthyMemo (middle.finishFold (ast.address, pred) out).truthyMemo)
    (consults : Consults code ast set.contents middle.truthyMemo (code.fold ast pred) [] [] out) :
    Closed code ast set.contents before (middle.finishFold (ast.address, pred) out).truthyMemo := by
  intro other answer found
  by_cases same : other = pred
  · subst same
    obtain rfl : out = answer := Option.some.inj ((finishFold_self middle _ out).symm.trans found)
    exact .inr (consults.mono within)
  · have distinct : (ast.address, other) ≠ (ast.address, pred) := by
      intro equal
      exact same (Prod.mk.inj equal).2
    rcases closed other answer ((finishFold_of_ne middle distinct out).symm.trans found) with
      known | consulted
    · exact .inl known
    · exact .inr (consulted.mono within)

theorem Clean.closed {before : TruthyKey → Option (Option Bool)}
    (clean : Clean code ast set.contents prog below base own world next answer)
    (settled : Settled ast set world)
    (closed : Closed code ast set.contents before world.truthyMemo) :
    Closed code ast set.contents before next.truthyMemo := by
  induction clean with
  | ret => exact closed
  | step _ _ _ inductionHypothesis => exact inductionHypothesis settled closed
  | reach cleanBody _ body continued =>
      exact continued (cleanBody.settled settled).1 (body settled closed)
  | known _ _ inductionHypothesis => exact inductionHypothesis settled closed
  | folded unknown absent cleanFold _ fold continued =>
      obtain ⟨settledFinished, within, _⟩ := cleanFold.finishFold settled unknown absent
      exact continued settledFinished ((fold (settled.startFold unknown) closed).finishFold within
        (cleanFold.consults (settled.startFold unknown)))

/-- Where everything known follows from what is known, a clean run finds only what is known. -/
theorem Clean.consults_unique {before known : TruthyKey → Option (Option Bool)} {other : Answer}
    (clean : Clean code ast set.contents prog below base own world next answer)
    (settled : Settled ast set world) (within : Within world.truthyMemo known)
    (beforeWithin : Within before world.truthyMemo)
    (closed : Closed code ast set.contents before known)
    (consults : Consults code ast set.contents known prog base own other) :
    other = answer ∧ Within next.truthyMemo known := by
  induction clean with
  | ret =>
      cases consults with
      | ret => exact ⟨rfl, within⟩
      | step step _ => exact absurd step (by simp [localStep])
  | step above _ _ inductionHypothesis =>
      cases consults with
      | step step consultsRest =>
          obtain ⟨rfl, rfl⟩ := Prod.mk.inj (Option.some.inj (above.symm.trans step))
          exact inductionHypothesis settled within beforeWithin consultsRest
      | ret => exact absurd above (by simp [localStep])
      | reach _ _ => exact absurd above (by simp [localStep])
      | known _ _ => exact absurd above (by simp [localStep])
  | reach cleanBody _ body continued =>
      cases consults with
      | step step _ => exact absurd step (by simp [localStep])
      | reach consultsBody consultsRest =>
          obtain ⟨settledMiddle, grown, _⟩ := cleanBody.settled settled
          obtain ⟨rfl, withinMiddle⟩ := body settled within beforeWithin consultsBody
          exact continued settledMiddle withinMiddle (beforeWithin.trans grown) consultsRest
  | known found _ inductionHypothesis =>
      cases consults with
      | step step _ => exact absurd step (by simp [localStep])
      | known foundKnown consultsRest =>
          obtain rfl := Option.some.inj ((within _ _ found).symm.trans foundKnown)
          exact inductionHypothesis settled within beforeWithin consultsRest
  | @folded _ _ pred out _ _ _ _ _ middle _ unknown absent cleanFold _ fold continued =>
      cases consults with
      | step step _ => exact absurd step (by simp [localStep])
      | @known _ _ _ hit _ _ _ foundKnown consultsRest =>
          have consultsFold : Consults code ast set.contents known (code.fold ast pred) [] [] hit := by
            rcases closed pred hit foundKnown with foundBefore | consulted
            · rw [beforeWithin _ _ foundBefore] at unknown
              exact absurd unknown (by simp)
            · exact consulted
          obtain ⟨rfl, withinMiddle⟩ :=
            fold (settled.startFold unknown) within beforeWithin consultsFold
          obtain ⟨settledFinished, _, grown, _⟩ := cleanFold.finishFold settled unknown absent
          refine continued settledFinished (fun key answer found => ?_) (beforeWithin.trans grown)
            consultsRest
          by_cases same : key = (ast.address, pred)
          · subst same
            obtain rfl := Option.some.inj ((finishFold_self middle _ _).symm.trans found)
            exact foundKnown
          · exact withinMiddle key answer ((finishFold_of_ne middle same _).symm.trans found)

/-- A clean run answers the same, and stays clean, where more is known and all of it follows from
what is known. -/
theorem Clean.replay {before : TruthyKey → Option (Option Bool)} {later : World Dead}
    (clean : Clean code ast set.contents prog below base own world next answer)
    (settled : Settled ast set world) (settledLater : Settled ast set later)
    (within : Within world.truthyMemo later.truthyMemo)
    (beforeWithin : Within before world.truthyMemo)
    (closed : Closed code ast set.contents before later.truthyMemo)
    (inFlight : later.truthyInFlight = world.truthyInFlight) :
    ∃ nextLater, Clean code ast set.contents prog below base own later nextLater answer ∧
      Within next.truthyMemo nextLater.truthyMemo ∧
      Closed code ast set.contents before nextLater.truthyMemo := by
  induction clean generalizing later with
  | ret => exact ⟨later, .ret, within, closed⟩
  | step above whole _ inductionHypothesis =>
      obtain ⟨nextLater, replayed, rest⟩ :=
        inductionHypothesis settled settledLater within beforeWithin closed inFlight
      exact ⟨nextLater, .step above whole replayed, rest⟩
  | reach cleanBody _ body continued =>
      obtain ⟨middleLater, replayedBody, withinMiddle, closedMiddle⟩ :=
        body settled settledLater within beforeWithin closed inFlight
      obtain ⟨settledMiddle, grown, running⟩ := cleanBody.settled settled
      obtain ⟨settledMiddleLater, _, runningLater⟩ := replayedBody.settled settledLater
      obtain ⟨nextLater, replayedRest, rest⟩ := continued settledMiddle settledMiddleLater
        withinMiddle (beforeWithin.trans grown) closedMiddle
        (runningLater.trans (inFlight.trans running.symm))
      exact ⟨nextLater, .reach replayedBody replayedRest, rest⟩
  | known found _ inductionHypothesis =>
      obtain ⟨nextLater, replayed, rest⟩ :=
        inductionHypothesis settled settledLater within beforeWithin closed inFlight
      exact ⟨nextLater, .known (within _ _ found) replayed, rest⟩
  | @folded _ _ pred out _ _ _ _ world middle _ unknown absent cleanFold _ fold continued =>
      obtain ⟨settledFinished, _, grown, running⟩ := cleanFold.finishFold settled unknown absent
      cases known : later.truthyMemo (ast.address, pred) with
      | some hit =>
          -- the answer is there already, and it is the one the fold gives here
          have consultsFold : Consults code ast set.contents later.truthyMemo (code.fold ast pred)
              [] [] hit := by
            rcases closed pred hit known with foundBefore | consulted
            · rw [beforeWithin _ _ foundBefore] at unknown
              exact absurd unknown (by simp)
            · exact consulted
          obtain ⟨rfl, withinMiddle⟩ := cleanFold.consults_unique (settled.startFold unknown) within
            beforeWithin closed consultsFold
          have withinFinished :
              Within (middle.finishFold (ast.address, pred) hit).truthyMemo later.truthyMemo := by
            intro key answer found
            by_cases same : key = (ast.address, pred)
            · subst same
              obtain rfl := Option.some.inj ((finishFold_self middle _ _).symm.trans found)
              exact known
            · exact withinMiddle key answer ((finishFold_of_ne middle same _).symm.trans found)
          obtain ⟨nextLater, replayed, rest⟩ := continued settledFinished settledLater withinFinished
            (beforeWithin.trans grown) closed (inFlight.trans running.symm)
          exact ⟨nextLater, .known known replayed, rest⟩
      | none =>
          have absentLater : (ast.address, pred) ∉ later.truthyInFlight := by
            rw [inFlight]
            exact absent
          have started : (later.startFold (ast.address, pred)).truthyInFlight =
              (world.startFold (ast.address, pred)).truthyInFlight :=
            congrArg (List.cons (ast.address, pred)) inFlight
          obtain ⟨middleLater, replayedFold, withinMiddle, closedMiddle⟩ :=
            fold (settled.startFold unknown) (settledLater.startFold known) within beforeWithin
              closed started
          obtain ⟨settledFinishedLater, grownLater, _, runningLater⟩ :=
            replayedFold.finishFold settledLater known absentLater
          have withinFinished : Within (middle.finishFold (ast.address, pred) out).truthyMemo
              (middleLater.finishFold (ast.address, pred) out).truthyMemo := by
            intro key answer found
            by_cases same : key = (ast.address, pred)
            · subst same
              rw [finishFold_self] at found ⊢
              exact found
            · rw [finishFold_of_ne _ same] at found ⊢
              exact withinMiddle key answer found
          have closedFinished := closedMiddle.finishFold grownLater
            ((cleanFold.consults (settled.startFold unknown)).mono withinMiddle)
          obtain ⟨nextLater, replayedRest, rest⟩ := continued settledFinished settledFinishedLater
            withinFinished (beforeWithin.trans grown) closedFinished
            (runningLater.trans (inFlight.trans running.symm))
          exact ⟨nextLater, .folded known absentLater replayedFold replayedRest, rest⟩

end Runs

end Rigor.Infer.Reach
