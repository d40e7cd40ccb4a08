import Rigor.Infer.Reach.Simulation

/-!
# Sequences of calls

The calls on one `Typer`, each on a stack and a tree of its own.  As long as neither the stamps nor the
ids wrap, every answer is the answer of `local_reach_uncached`.
-/

namespace Rigor.Infer.Reach

variable {Out Dead : Type} {code : Code Out Dead}

/-- What a caller of the `Typer` runs. -/
structure Call (Out Dead : Type) where
  ast : Ast
  stack : Nat
  seen : List Text
  /-- A key is pushed only where it is absent. -/
  distinct : seen.Nodup
  prog : Prog Out Dead false Unit

def runCall (code : Code Out Dead) (fuel : Nat) (typer : Typer Out Dead) (call : Call Out Dead) :
    Option (Typer Out Dead) :=
  (execMemo code call.ast call.stack fuel call.prog call.seen [] typer).map Prod.fst

def runCalls (code : Code Out Dead) (fuel : Nat) (calls : List (Call Out Dead)) :
    Option (Typer Out Dead) :=
  calls.foldlM (runCall code fuel) (Typer.start code.emptyDead)

/-- Between calls no computation is in progress, so the invariant holds for every stack. -/
structure Idle (code : Code Out Dead) (typer : Typer Out Dead) : Prop where
  inv (stack : Nat) : Inv code stack typer
  frames : typer.frames.frames = []

theorem idle_start : Idle code (Typer.start code.emptyDead) := by
  refine ⟨fun stack => ⟨World.wellFormed_start code.emptyDead, keysOk_nil, MemoFrames.ok_start, ?_,
    fun key entry member => absurd member List.not_mem_nil,
    fun event member => absurd member List.not_mem_nil⟩, rfl⟩
  exact fun seen stamp tested folding member => absurd member List.not_mem_nil

theorem runCall_noWrap {fuel : Nat} {typer next : Typer Out Dead} {call : Call Out Dead}
    (ran : runCall code fuel typer call = some next) (noWrap : next.wrapped = false) :
    typer.wrapped = false := by
  obtain ⟨⟨done, _⟩, run, rfl⟩ := Option.map_eq_some_iff.mp ran
  exact execMemo_noWrap run noWrap

/-- A program that a caller runs does what it does without the memo. -/
theorem Idle.execMemo {fuel stack : Nat} {ast : Ast} {seen : List Text} {Answer : Type}
    {prog : Prog Out Dead false Answer} {typer next : Typer Out Dead} {answer : Answer}
    (idle : Idle code typer) (distinct : seen.Nodup)
    (run : execMemo code ast stack fuel prog seen [] typer = some (next, answer))
    (noWrap : next.wrapped = false) :
    Idle code next ∧
      ∃ fuel', exec code ast fuel' prog seen [] typer.world = some (next.world, answer) := by
  have simulates := execMemo_simulates (idle.inv stack) (by rwa [List.append_nil])
    (fun scanning => absurd scanning (by simp)) run noWrap
  have grows := simulates.grows
  rw [idle.frames] at grows
  have frames : next.frames.frames = [] := by
    cases frames : next.frames.frames with
    | nil => rfl
    | cons frame outer =>
        rw [frames] at grows
        exact grows.elim
  have inv := simulates.inv
  refine ⟨⟨fun stack => ⟨inv.wf, inv.keys, inv.frames, ?_, inv.entries, inv.events⟩, frames⟩,
    simulates.run⟩
  rw [frames]
  exact fun seen stamp tested folding member => absurd member List.not_mem_nil

/-- One call. -/
theorem Idle.runCall {fuel : Nat} {typer next : Typer Out Dead} {call : Call Out Dead}
    (idle : Idle code typer) (ran : runCall code fuel typer call = some next)
    (noWrap : next.wrapped = false) : Idle code next := by
  obtain ⟨⟨done, _⟩, run, rfl⟩ := Option.map_eq_some_iff.mp ran
  exact (idle.execMemo call.distinct run noWrap).1

theorem foldlM_runCall_noWrap {fuel : Nat} {calls : List (Call Out Dead)}
    {typer final : Typer Out Dead} (ran : calls.foldlM (runCall code fuel) typer = some final)
    (noWrap : final.wrapped = false) : typer.wrapped = false := by
  induction calls generalizing typer with
  | nil =>
      obtain rfl := Option.some.inj ran
      exact noWrap
  | cons call calls inductionHypothesis =>
      obtain ⟨next, first, rest⟩ := Option.bind_eq_some_iff.mp ran
      exact runCall_noWrap first (inductionHypothesis rest)

theorem Idle.runCalls {fuel : Nat} {calls : List (Call Out Dead)} {typer final : Typer Out Dead}
    (idle : Idle code typer) (ran : calls.foldlM (Reach.runCall code fuel) typer = some final)
    (noWrap : final.wrapped = false) : Idle code final := by
  induction calls generalizing typer with
  | nil =>
      obtain rfl := Option.some.inj ran
      exact idle
  | cons call calls inductionHypothesis =>
      obtain ⟨next, first, rest⟩ := Option.bind_eq_some_iff.mp ran
      exact inductionHypothesis (idle.runCall first (foldlM_runCall_noWrap rest noWrap)) rest

/-- Every answer of `local_reach` is the answer of `local_reach_uncached` at that moment. -/
def Transparent (code : Code Out Dead) (typer : Typer Out Dead) : Prop :=
  ∀ event ∈ typer.events, event.Transparent code

/-- In every sequence of calls the memo is transparent, as long as the stamps do not wrap while a
computation is in progress and the ids do not wrap. -/
theorem calls_transparent {fuel : Nat} {calls : List (Call Out Dead)} {final : Typer Out Dead}
    (ran : runCalls code fuel calls = some final) (noWrap : final.wrapped = false) :
    Transparent code final :=
  ((idle_start.runCalls ran noWrap).inv 0).events

/-! ## Stamps that wrap -/

def leafQuery (n : Nat) : Query :=
  ⟨[], (n, n), false⟩

/-- `n` calls on spans of their own, the last one at zero. -/
def leaves : Nat → Prog Bool Unit false Bool → Prog Bool Unit false Bool
  | 0, rest => rest
  | n + 1, rest => .reach (leafQuery n) fun _ => leaves n rest

/-- A leaf answers at once, `t` tests `k`, and every other root tests `k` after `n` leaves. -/
def looping (n : Nat) : Code Bool Unit where
  body _ query :=
    match query.root with
    | [] => .ret true
    | ['t'] => .test ['k'] .ret
    | _ => leaves n (.test ['k'] .ret)
  fold _ _ := .ret none
  scan _ := .ret ()
  emptyDead := ()

def loopingTree : Ast :=
  ⟨1, 1⟩

def testQuery : Query :=
  ⟨['t'], (0, 1), false⟩

def loopQuery : Query :=
  ⟨['l'], (0, 2), false⟩

/-- A call of `local_reach` on a stack of at most one key. -/
def reachCall (query : Query) (seen : List Text) (distinct : seen.Nodup) : Call Bool Unit :=
  ⟨loopingTree, 0, seen, distinct, .reach query fun _ => .ret ()⟩

/-- The loop has the second stamp, and so has the first test after it. -/
def loopingCalls : List (Call Bool Unit) :=
  [reachCall ⟨[], (0, 3), false⟩ [] List.nodup_nil, reachCall loopQuery [] List.nodup_nil,
    reachCall testQuery [['j']] (List.nodup_singleton _),
    reachCall testQuery [['k']] (List.nodup_singleton _)]

/-- Two tests, the second answered from the first. -/
def testCalls : List (Call Bool Unit) :=
  [reachCall testQuery [['k']] (List.nodup_singleton _),
    reachCall testQuery [['k']] (List.nodup_singleton _)]

theorem testCalls_transparent :
    ∃ final, runCalls (looping 0) 4 testCalls = some final ∧ final.events.length = 2 ∧
      Transparent (looping 0) final :=
  ⟨_, rfl, rfl, @calls_transparent _ _ (looping 0) 4 testCalls _ rfl rfl⟩

section Wrap

/-- A state between the calls of `loopingCalls`. -/
def loopingTyper (entries : EntryKey → List (MemoEntry Bool)) (keys : List (Text × Nat))
    (frames : MemoFrames) (events : List (Event Bool Unit)) (wrapped : Bool) : Typer Bool Unit :=
  ⟨World.start (), ⟨loopingTree, none, entries, keys⟩, frames, events, wrapped⟩

/-- The stamp after a push. -/
def nextStampOf (stamp : Nat) : Nat :=
  if stamp = u32Max then 1 else stamp + 1

theorem iterate_nextStampOf {stamp n : Nat} (below : stamp + n ≤ u32Max) :
    nextStampOf^[n] stamp = stamp + n := by
  induction n with
  | zero => rfl
  | succ n inductionHypothesis =>
      rw [Function.iterate_succ_apply', inductionHypothesis (by omega), nextStampOf,
        if_neg (by omega), Nat.add_assoc]

/-- The frame of the loop. -/
def loopFrames (stamp : Nat) : MemoFrames :=
  ⟨[.reach 0 2 [] []], fun _ _ => 0, stamp⟩

variable {n : Nat} {entries : EntryKey → List (MemoEntry Bool)} {keys : List (Text × Nat)}
  {frames : MemoFrames} {events : List (Event Bool Unit)} {wrapped : Bool}

theorem lookup_loopingTyper (query : Query) (seen : List Text)
    (empty : entries (query.useSpan, query.skipClassGuards, seen.length) = []) :
    ((loopingTyper entries keys frames events wrapped).prepare loopingTree).lookup query seen =
      (none, loopingTyper entries keys frames events wrapped) := by
  have prepared : (loopingTyper entries keys frames events wrapped).prepare loopingTree =
      loopingTyper entries keys frames events wrapped := rfl
  have same : Function.update entries (query.useSpan, query.skipClassGuards, seen.length) [] =
      entries := by
    rw [← empty, Function.update_eq_self]
  rw [prepared]
  simp only [Typer.lookup, loopingTyper, empty, findEntry, Option.toList_none, List.nil_append, same]

/-- A push on unmarked frames. -/
theorem pushReach_loopingTyper (frames : List MemoFrame) (stamp : Nat) :
    ∃ wrapped', (loopingTyper entries keys ⟨frames, fun _ _ => 0, stamp⟩ events wrapped).pushReach 0 =
      loopingTyper entries keys ⟨.reach 0 (nextStampOf stamp) [] [] :: frames, fun _ _ => 0,
        nextStampOf stamp⟩ events wrapped' := by
  have pushed : MemoFrames.pushReach ⟨frames, fun _ _ => 0, stamp⟩ 0 =
      ⟨.reach 0 (nextStampOf stamp) [] [] :: frames, fun _ _ => 0, nextStampOf stamp⟩ := by
    simp only [MemoFrames.pushReach, nextStampOf]
    split <;> rfl
  exact ⟨_, congrArg (fun frames => loopingTyper entries keys frames events _) pushed⟩

theorem execMemo_miss {fuel stack : Nat} {Out Dead Answer : Type} {code : Code Out Dead} {ast : Ast}
    {scanning : Bool} {query : Query} {base own : List Text} {typer missed done : Typer Out Dead}
    {out : Out} (looked : (typer.prepare ast).lookup query (base ++ own) = (none, missed))
    (body : execMemo code ast stack fuel (code.body ast query) (base ++ own) []
      (missed.pushReach stack) = some (done, out)) (next : Out → Prog Out Dead scanning Answer) :
    execMemo code ast stack (fuel + 1) (.reach query next) base own typer =
      execMemo code ast stack fuel (next out) base own
        (Typer.note (done.finishReach ast stack (typer.world.currentDead ast) query (base ++ own) out)
          ⟨ast, query, base ++ own, typer.world, out⟩) := by
  simp only [execMemo, looked, body, Option.bind_some]

theorem finishReach_loopingTyper {query : Query} {seen : List Text} {stamp nextStamp : Nat}
    {tested : List Nat} {outer : List MemoFrame} {marks : Nat → Nat → Nat} {out : Bool}
    (empty : entries (query.useSpan, query.skipClassGuards, seen.length) = []) :
    (loopingTyper entries keys ⟨.reach 0 stamp tested [] :: outer, marks, nextStamp⟩ events
        wrapped).finishReach loopingTree 0 none query seen out =
      loopingTyper (Function.update entries (query.useSpan, query.skipClassGuards, seen.length)
        [@Typer.newEntry Bool Unit ⟨loopingTree, none, entries, keys⟩ query seen tested [] out]) keys
        (MemoFrames.record ⟨outer, marks, nextStamp⟩ 0 tested []) events wrapped := by
  simp [Typer.finishReach, Typer.store, loopingTyper, MemoFrames.pop, empty, ReachMemo.validFor,
    sameDead, World.currentDead, World.start]

theorem record_loopFrames (stamp : Nat) :
    (loopFrames stamp).record 0 [] [] = loopFrames stamp := by
  simp [loopFrames, MemoFrames.record, MemoFrames.markAll, MemoFrames.addFolding]

/-- A leaf in the loop takes a stamp. -/
theorem leaf_step {stamp m : Nat} (empty : entries ((m, m), false, 0) = []) :
    ∃ entry event wrapped', ∀ fuel (next : Bool → Prog Bool Unit false Bool),
      execMemo (looping n) loopingTree 0 (fuel + 2) (.reach (leafQuery m) next) [] []
          (loopingTyper entries keys (loopFrames stamp) events wrapped) =
        execMemo (looping n) loopingTree 0 (fuel + 1) (next true) [] []
          (loopingTyper (Function.update entries ((m, m), false, 0) [entry]) keys
            (loopFrames (nextStampOf stamp)) (event :: events) wrapped') := by
  have looked := @lookup_loopingTyper entries keys (loopFrames stamp) events wrapped
    (leafQuery m) [] empty
  obtain ⟨wrapped', pushed⟩ := @pushReach_loopingTyper entries keys events wrapped
    (loopFrames stamp).frames stamp
  have finished := @finishReach_loopingTyper entries keys events wrapped' (leafQuery m) []
    (nextStampOf stamp) (nextStampOf stamp) [] (loopFrames stamp).frames (fun _ _ => 0) true empty
  rw [show (⟨(loopFrames stamp).frames, fun _ _ => 0, nextStampOf stamp⟩ : MemoFrames) =
    loopFrames (nextStampOf stamp) from rfl, record_loopFrames] at finished
  refine ⟨@Typer.newEntry Bool Unit ⟨loopingTree, none, entries, keys⟩ (leafQuery m) [] [] [] true,
    ⟨loopingTree, leafQuery m, [], World.start (), true⟩, wrapped', fun fuel next =>
    (execMemo_miss looked (congrArg (execMemo _ _ _ (fuel + 1) _ _ _) pushed) next).trans ?_⟩
  exact congrArg (fun typer => execMemo _ _ _ _ _ _ _ (Typer.note typer _)) finished

theorem leaves_run {stamp : Nat} (m : Nat) (rest : Prog Bool Unit false Bool)
    (empty : ∀ j < m, entries ((j, j), false, 0) = []) :
    ∃ entries' events' wrapped',
      (∀ key : EntryKey, key.1.1 ≠ key.1.2 → entries' key = entries key) ∧
      ∀ fuel, execMemo (looping n) loopingTree 0 (fuel + 1 + m) (leaves m rest) [] []
          (loopingTyper entries keys (loopFrames stamp) events wrapped) =
        execMemo (looping n) loopingTree 0 (fuel + 1) rest [] []
          (loopingTyper entries' keys (loopFrames (nextStampOf^[m] stamp)) events' wrapped') := by
  induction m generalizing stamp entries events wrapped with
  | zero => exact ⟨entries, events, wrapped, fun _ _ => rfl, fun _ => rfl⟩
  | succ m inductionHypothesis =>
      obtain ⟨entry, event, wrapped', step⟩ :=
        @leaf_step n entries keys events wrapped stamp m (empty m (Nat.lt_succ_self m))
      have emptyRest : ∀ j < m,
          Function.update entries ((m, m), false, 0) [entry] ((j, j), false, 0) = [] := by
        intro j below
        rw [Function.update_of_ne (by simp [Nat.ne_of_lt below])]
        exact empty j (Nat.lt_succ_of_lt below)
      obtain ⟨entries', events', wrapped'', kept, run⟩ :=
        @inductionHypothesis _ (event :: events) wrapped' (nextStampOf stamp) emptyRest
      refine ⟨entries', events', wrapped'', fun key apart => ?_, fun fuel => ?_⟩
      · rw [kept key apart, Function.update_of_ne]
        rintro rfl
        exact apart rfl
      · rw [Function.iterate_succ_apply, ← run fuel]
        have more : fuel + 1 + (m + 1) = fuel + m + 2 := by omega
        have less : fuel + 1 + m = fuel + m + 1 := by omega
        rw [more, less]
        exact step (fuel + m) fun _ => leaves m rest

theorem runCall_leaf (fuel : Nat) :
    ∃ entries events wrapped,
      runCall (looping n) (fuel + 3) (Typer.start ()) (reachCall ⟨[], (0, 3), false⟩ []
          List.nodup_nil) =
        some (loopingTyper entries [] ⟨[], fun _ _ => 0, 1⟩ events wrapped) ∧
      ∀ key : EntryKey, key.1 ≠ (0, 3) → entries key = [] := by
  refine ⟨_, _, _, rfl, fun key apart => ?_⟩
  have other : key ≠ ((0, 3), false, 0) := by
    rintro rfl
    exact apart rfl
  exact (Function.update_of_ne other _ _).trans (Function.update_of_ne other _ _)

/-- The marks after the loop. -/
def loopMarks : Nat → Nat → Nat :=
  Function.update (fun _ _ => 0) 0 (Function.update (fun _ => 0) 0 2)

/-- After a wrap the loop marks `k` with a stamp that is still to come. -/
theorem loop_run (wraps : nextStampOf^[n] 2 = 1) (fuel : Nat)
    (empty : ∀ key : EntryKey, key.1 ≠ (0, 3) → entries key = []) :
    ∃ entries' events' wrapped',
      (∀ key : EntryKey, key.1.1 ≠ key.1.2 → entries' key = entries key) ∧
      execMemo (looping n) loopingTree 0 (fuel + 2 + n) (leaves n (.test ['k'] .ret)) [] []
          (loopingTyper entries [] (loopFrames 2) events wrapped) =
        some (loopingTyper entries' [(['k'], 0)] ⟨[.reach 0 2 [0] []], loopMarks, 1⟩ events'
          wrapped', false) := by
  obtain ⟨entries', events', wrapped', kept, run⟩ :=
    @leaves_run n entries [] events wrapped 2 n (.test ['k'] .ret)
      (fun j _ => empty _ (by simp only [ne_eq, Prod.mk.injEq, not_and]; omega))
  rw [wraps] at run
  exact ⟨entries', events', _, kept, (run (fuel + 1)).trans rfl⟩

theorem runCall_loop (wraps : nextStampOf^[n] 2 = 1) (fuel : Nat)
    (empty : ∀ key : EntryKey, key.1 ≠ (0, 3) → entries key = []) :
    ∃ entries' events' wrapped',
      runCall (looping n) (fuel + 2 + n + 1)
          (loopingTyper entries [] ⟨[], fun _ _ => 0, 1⟩ events wrapped)
          (reachCall loopQuery [] List.nodup_nil) =
        some (loopingTyper entries' [(['k'], 0)] ⟨[], loopMarks, 1⟩ events' wrapped') ∧
      entries' ((0, 1), false, 1) = [] := by
  have looked := @lookup_loopingTyper entries [] ⟨[], fun _ _ => 0, 1⟩ events wrapped loopQuery []
    (empty _ (by decide))
  obtain ⟨wrapped', pushed⟩ := @pushReach_loopingTyper entries [] events wrapped [] 1
  obtain ⟨entries', events', wrapped'', kept, ran⟩ :=
    @loop_run n entries events wrapped' wraps fuel empty
  have keptLoop : entries' ((0, 2), false, 0) = [] :=
    (kept _ (by decide)).trans (empty _ (by decide))
  have finished := @finishReach_loopingTyper entries' [(['k'], 0)] events' wrapped'' loopQuery []
    2 1 [0] [] loopMarks false keptLoop
  have body : execMemo (looping n) loopingTree 0 (fuel + 2 + n)
      ((looping n).body loopingTree loopQuery) ([] ++ []) []
      ((loopingTyper entries [] ⟨[], fun _ _ => 0, 1⟩ events wrapped).pushReach 0) = _ :=
    (congrArg (execMemo _ _ _ _ _ _ _) pushed).trans ran
  have called := execMemo_miss looked body fun _ => (.ret () : Prog Bool Unit false Unit)
  refine ⟨Function.update entries' ((0, 2), false, 0) [@Typer.newEntry Bool Unit
    ⟨loopingTree, none, entries', [(['k'], 0)]⟩ loopQuery [] [0] [] false],
    ⟨loopingTree, loopQuery, [], World.start (), false⟩ :: events', wrapped'', ?_, ?_⟩
  · refine (congrArg (Option.map Prod.fst) called).trans ?_
    have returned (typer : Typer Bool Unit) : Option.map Prod.fst (execMemo (looping n) loopingTree 0
        (fuel + 2 + n) (.ret () : Prog Bool Unit false Unit) [] [] typer) = some typer := by
      rw [show fuel + 2 + n = fuel + n + 1 + 1 by omega]
      rfl
    exact (returned _).trans (congrArg (fun typer => some (Typer.note typer _)) finished)
  · rw [Function.update_of_ne (by decide)]
    exact (kept _ (by decide)).trans (empty _ (by decide))

/-- The stamp of the test is the stamp of the mark, so `k` is not recorded. -/
theorem runCall_test (fuel : Nat) (empty : entries ((0, 1), false, 1) = []) :
    ∃ marks events' wrapped',
      runCall (looping n) (fuel + 3) (loopingTyper entries [(['k'], 0)] ⟨[], loopMarks, 1⟩ events
          wrapped) (reachCall testQuery [['j']] (List.nodup_singleton _)) =
        some (loopingTyper (Function.update entries ((0, 1), false, 1)
          [⟨['t'], [], 0#64, [], [], false⟩]) [(['k'], 0)] ⟨[], marks, 2⟩ events' wrapped') := by
  have looked := @lookup_loopingTyper entries [(['k'], 0)] ⟨[], loopMarks, 1⟩ events wrapped
    testQuery [['j']] empty
  have body : ∃ marks wrapped', execMemo (looping n) loopingTree 0 (fuel + 2)
      ((looping n).body loopingTree testQuery) ([['j']] ++ []) []
      ((loopingTyper entries [(['k'], 0)] ⟨[], loopMarks, 1⟩ events wrapped).pushReach 0) =
        some (loopingTyper entries [(['k'], 0)] ⟨[.reach 0 2 [] []], marks, 2⟩ events wrapped',
          false) := ⟨_, _, rfl⟩
  obtain ⟨marks, wrapped', body⟩ := body
  have called := execMemo_miss looked body fun _ => (.ret () : Prog Bool Unit false Unit)
  have finished := @finishReach_loopingTyper entries [(['k'], 0)] events wrapped' testQuery [['j']]
    2 2 [] [] marks false empty
  refine ⟨marks, ⟨loopingTree, testQuery, [['j']], World.start (), false⟩ :: events, wrapped', ?_⟩
  refine (congrArg (Option.map Prod.fst) called).trans ?_
  exact congrArg (fun typer => some (Typer.note typer _)) finished

/-- The entry that does not know `k` answers for a stack that holds it. -/
theorem runCall_stale (fuel : Nat) {marks : Nat → Nat → Nat} :
    ∃ final,
      runCall (looping n) (fuel + 3) (loopingTyper (Function.update entries ((0, 1), false, 1)
          [⟨['t'], [], 0#64, [], [], false⟩]) [(['k'], 0)] ⟨[], marks, 2⟩ events wrapped)
          (reachCall testQuery [['k']] (List.nodup_singleton _)) = some final ∧
        ⟨loopingTree, testQuery, [['k']], World.start (), false⟩ ∈ final.events := by
  exact ⟨_, rfl, List.mem_cons_self⟩

/-- Without the memo the test finds `k`. -/
theorem not_transparent_stale :
    ¬ Event.Transparent (looping n)
      ⟨loopingTree, testQuery, [['k']], World.start (), false⟩ := by
  rintro ⟨fuel, world, ran⟩
  have held : exec (looping n) loopingTree 2 ((looping n).body loopingTree testQuery) [['k']] []
      (World.start ()) = some (World.start (), true) := rfl
  exact Bool.false_ne_true (congrArg Prod.snd (exec_unique ran held))

/-- The memo gives a wrong answer once the stamps came back to the stamp of the loop. -/
theorem looping_not_transparent (wraps : nextStampOf^[n] 2 = 1) :
    ∃ final, runCalls (looping n) (n + 3) loopingCalls = some final ∧
      ¬ Transparent (looping n) final := by
  obtain ⟨entries₁, events₁, wrapped₁, first, empty₁⟩ := @runCall_leaf n n
  obtain ⟨entries₂, events₂, wrapped₂, second, empty₂⟩ :=
    @runCall_loop n entries₁ events₁ wrapped₁ wraps 0 empty₁
  obtain ⟨marks, events₃, wrapped₃, third⟩ := @runCall_test n entries₂ events₂ wrapped₂ n empty₂
  obtain ⟨final, fourth, stale⟩ := @runCall_stale n entries₂ events₃ wrapped₃ n marks
  rw [show 0 + 2 + n + 1 = n + 3 by omega] at second
  refine ⟨final, ?_, fun transparent => not_transparent_stale (transparent _ stale)⟩
  simp only [runCalls, loopingCalls, List.foldlM_cons, List.foldlM_nil, Option.bind_eq_bind]
  rw [show Typer.start (looping n).emptyDead = Typer.start () from rfl, first, Option.bind_some,
    second, Option.bind_some, third, Option.bind_some, fourth]
  rfl

/-- A run of more than `u32::MAX` computations in which the memo gives a wrong answer. -/
theorem calls_not_transparent :
    ∃ final, runCalls (looping (u32Max - 1)) (u32Max - 1 + 3) loopingCalls = some final ∧
      ¬ Transparent (looping (u32Max - 1)) final := by
  refine looping_not_transparent ?_
  rw [show u32Max - 1 = u32Max - 2 + 1 from rfl, Function.iterate_succ_apply',
    iterate_nextStampOf (by decide)]
  rfl

end Wrap

end Rigor.Infer.Reach
