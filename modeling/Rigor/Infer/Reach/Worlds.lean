import Mathlib.Logic.Relation
import Rigor.Infer.Reach.Memo

/-!
# The worlds of a run

The state behind the memo changes in five ways.  While the dead set of a tree stands, the truthiness
memo only grows; a dead set that was replaced never comes back.
-/

namespace Rigor.Infer.Reach

namespace World

variable {Dead : Type}

/-- One change of the state. -/
inductive Step : World Dead → World Dead → Prop where
  | startScan {world : World Dead} (idle : world.deadInFlight = false) (emptyDead : Dead) :
      Step world (world.startScan emptyDead)
  | publish {world : World Dead} (scanning : world.deadInFlight = true) (contents : Dead) :
      Step world (world.publish contents)
  | finishScan {world : World Dead} (scanning : world.deadInFlight = true) (address : Nat)
      (contents : Dead) : Step world (world.finishScan address contents)
  | startFold {world : World Dead} {key : TruthyKey} (unknown : world.truthyMemo key = none) :
      Step world (world.startFold key)
  | finishFold {world : World Dead} {key : TruthyKey} (running : key ∈ world.truthyInFlight)
      (out : Option Bool) : Step world (world.finishFold key out)

def Future : World Dead → World Dead → Prop :=
  Relation.ReflTransGen Step

structure WellFormed (world : World Dead) : Prop where
  cacheOld {address : Nat} {set : DeadSet Dead} :
    world.deadCache = some (address, set) → set.id < world.nextId
  partialOld : world.deadPartial.id < world.nextId
  distinct {address : Nat} {set : DeadSet Dead} : world.deadInFlight = true →
    world.deadCache = some (address, set) → set.id ≠ world.deadPartial.id
  /-- Only a scan in flight has provisional answers. -/
  settled : world.deadInFlight = false → world.truthyProvisional = []
  /-- A predicate that is folding has no answer yet. -/
  disjoint {key : TruthyKey} : key ∈ world.truthyInFlight → world.truthyMemo key = none

theorem wellFormed_start (emptyDead : Dead) : (start emptyDead).WellFormed where
  cacheOld cached := by simp [start] at cached
  partialOld := Nat.zero_lt_one
  distinct scanning := by simp [start] at scanning
  settled _ := rfl
  disjoint running := by simp [start] at running

theorem Step.wellFormed {world next : World Dead} (step : Step world next)
    (wf : world.WellFormed) : next.WellFormed := by
  cases step with
  | startScan idle emptyDead =>
      exact ⟨fun cached => Nat.lt_succ_of_lt (wf.cacheOld cached), Nat.lt_succ_self _,
        fun _ cached => Nat.ne_of_lt (wf.cacheOld cached), fun idle => by simp [World.startScan] at idle,
        wf.disjoint⟩
  | publish scanning contents =>
      exact ⟨fun cached => Nat.lt_succ_of_lt (wf.cacheOld cached), Nat.lt_succ_self _,
        fun _ cached => Nat.ne_of_lt (wf.cacheOld cached), wf.settled, wf.disjoint⟩
  | finishScan scanning address contents =>
      refine ⟨fun cached => ?_, Nat.lt_succ_of_lt wf.partialOld, fun scanning => ?_, fun _ => rfl,
        fun running => ?_⟩
      · obtain ⟨_, rfl⟩ := Prod.mk.inj (Option.some.inj cached)
        exact Nat.lt_succ_self _
      · simp [World.finishScan] at scanning
      · simp only [World.finishScan]
        split
        · rfl
        · exact wf.disjoint running
  | @startFold key unknown =>
      refine ⟨wf.cacheOld, wf.partialOld, wf.distinct, wf.settled, fun running => ?_⟩
      rcases List.mem_cons.mp running with rfl | running
      · exact unknown
      · exact wf.disjoint running
  | @finishFold key running out =>
      refine ⟨wf.cacheOld, wf.partialOld, wf.distinct, fun idle => ?_, fun other => ?_⟩
      · have quiet : world.deadInFlight = false := idle
        simp only [World.finishFold, quiet, Bool.false_eq_true, if_false]
        exact wf.settled quiet
      · obtain ⟨other, distinct⟩ := List.mem_filter.mp other
        exact (Function.update_of_ne (by simpa using distinct) _ _).trans (wf.disjoint other)

theorem Future.wellFormed {world next : World Dead} (future : Future world next)
    (wf : world.WellFormed) : next.WellFormed := by
  induction future with
  | refl => exact wf
  | tail _ step inductionHypothesis => exact step.wellFormed inductionHypothesis

/-! ## Dead sets -/

theorem currentDead_of_cached {world : World Dead} {ast : Ast} {set : DeadSet Dead}
    (cached : world.deadCache = some (ast.address, set)) : world.currentDead ast = some set := by
  simp [currentDead, cached]

/-- The cached set of the tree, or the partial set of a scan in flight. -/
theorem currentDead_eq_some_iff {world : World Dead} {ast : Ast} {set : DeadSet Dead} :
    world.currentDead ast = some set ↔
      world.deadCache = some (ast.address, set) ∨
        (∀ other, world.deadCache ≠ some (ast.address, other)) ∧ world.deadInFlight = true ∧
          world.deadPartial = set := by
  unfold currentDead
  cases world.deadCache with
  | none => simp
  | some entry =>
      obtain ⟨address, cached⟩ := entry
      by_cases same : address = ast.address
      · simp [same]
      · simp [same]

theorem deadInFlight_of_currentDead_eq_none {world : World Dead} {ast : Ast}
    (none : world.currentDead ast = none) : world.deadInFlight = false := by
  cases inFlight : world.deadInFlight with
  | false => rfl
  | true =>
      unfold currentDead at none
      cases cached : world.deadCache with
      | none => simp [cached, inFlight] at none
      | some entry =>
          simp only [cached, inFlight, if_true] at none
          split at none <;> simp at none

/-- The set is no longer reachable. -/
structure Retired (set : DeadSet Dead) (world : World Dead) : Prop where
  old : set.id < world.nextId
  cache {address : Nat} {cached : DeadSet Dead} :
    world.deadCache = some (address, cached) → cached.id ≠ set.id
  scan : world.deadInFlight = true → world.deadPartial.id ≠ set.id

theorem Retired.step {set : DeadSet Dead} {world next : World Dead} (retired : Retired set world)
    (step : Step world next) : Retired set next := by
  cases step with
  | startScan idle emptyDead =>
      exact ⟨Nat.lt_succ_of_lt retired.old, retired.cache, fun _ => (Nat.ne_of_lt retired.old).symm⟩
  | publish scanning contents =>
      exact ⟨Nat.lt_succ_of_lt retired.old, retired.cache, fun _ => (Nat.ne_of_lt retired.old).symm⟩
  | finishScan scanning address contents =>
      refine ⟨Nat.lt_succ_of_lt retired.old, fun cached => ?_, fun scanning => ?_⟩
      · obtain ⟨_, rfl⟩ := Prod.mk.inj (Option.some.inj cached)
        exact (Nat.ne_of_lt retired.old).symm
      · simp [World.finishScan] at scanning
  | startFold unknown => exact ⟨retired.old, retired.cache, retired.scan⟩
  | finishFold running out => exact ⟨retired.old, retired.cache, retired.scan⟩

theorem Retired.not_current {set current : DeadSet Dead} {world : World Dead} {ast : Ast}
    (retired : Retired set world) (found : world.currentDead ast = some current) :
    current.id ≠ set.id := by
  rcases currentDead_eq_some_iff.mp found with cached | ⟨_, scanning, rfl⟩
  · exact retired.cache cached
  · exact retired.scan scanning

/-- The answers of one world stand in another. -/
def Remembers (world other : World Dead) : Prop :=
  ∀ key answer, world.truthyMemo key = some answer → other.truthyMemo key = some answer

theorem remembers_finishFold {world : World Dead} (wf : world.WellFormed) {key : TruthyKey}
    (running : key ∈ world.truthyInFlight) (out : Option Bool) :
    world.Remembers (world.finishFold key out) := by
  intro other answer known
  have distinct : other ≠ key := by
    rintro rfl
    rw [wf.disjoint running] at known
    exact absurd known (by simp)
  exact (Function.update_of_ne distinct _ _).trans known

/-- Without a dead set the answers are settled, and no later scan drops them. -/
theorem Future.remembers_of_none {world next : World Dead} {ast : Ast} (wf : world.WellFormed)
    (none : world.currentDead ast = none) (future : Future world next) :
    world.Remembers next := by
  suffices settled : ∀ key answer, world.truthyMemo key = some answer →
      next.truthyMemo key = some answer ∧ key ∉ next.truthyProvisional from
    fun key answer known => (settled key answer known).1
  induction future with
  | refl =>
      intro key answer known
      rw [wf.settled (deadInFlight_of_currentDead_eq_none none)]
      exact ⟨known, List.not_mem_nil⟩
  | @tail middle last path step inductionHypothesis =>
      intro key answer known
      obtain ⟨known, notProvisional⟩ := inductionHypothesis key answer known
      have wfMiddle := Future.wellFormed path wf
      cases step with
      | startScan idle emptyDead => exact ⟨known, notProvisional⟩
      | publish scanning contents => exact ⟨known, notProvisional⟩
      | finishScan scanning address contents =>
          exact ⟨(if_neg notProvisional).trans known, List.not_mem_nil⟩
      | startFold unknown => exact ⟨known, notProvisional⟩
      | @finishFold folded running out =>
          refine ⟨remembers_finishFold wfMiddle running out key answer known, ?_⟩
          have distinct : key ≠ folded := by
            rintro rfl
            rw [wfMiddle.disjoint running] at known
            exact absurd known (by simp)
          simp only [World.finishFold]
          split
          · exact fun member => (List.mem_cons.mp member).elim distinct notProvisional
          · exact notProvisional

/-- A dead set stays and the answers with it, or it is retired. -/
theorem Future.stands_or_retired {world next : World Dead} {ast : Ast} {set : DeadSet Dead}
    (wf : world.WellFormed) (current : world.currentDead ast = some set)
    (future : Future world next) :
    next.currentDead ast = some set ∧ world.Remembers next ∨ Retired set next := by
  induction future with
  | refl => exact .inl ⟨current, fun _ _ known => known⟩
  | @tail middle last path step inductionHypothesis =>
      have wfMiddle := Future.wellFormed path wf
      rcases inductionHypothesis with ⟨stands, remembers⟩ | retired
      · cases step with
        | startScan idle emptyDead =>
            refine .inl ⟨?_, remembers⟩
            rcases currentDead_eq_some_iff.mp stands with cached | ⟨_, scanning, _⟩
            · exact currentDead_of_cached cached
            · simp [idle] at scanning
        | publish scanning contents =>
            rcases currentDead_eq_some_iff.mp stands with cached | ⟨_, _, rfl⟩
            · exact .inl ⟨currentDead_of_cached cached, remembers⟩
            · exact .inr ⟨Nat.lt_succ_of_lt wfMiddle.partialOld, wfMiddle.distinct scanning,
                fun _ => (Nat.ne_of_lt wfMiddle.partialOld).symm⟩
        | finishScan scanning address contents =>
            have old : set.id < middle.nextId := by
              rcases currentDead_eq_some_iff.mp stands with cached | ⟨_, _, rfl⟩
              · exact wfMiddle.cacheOld cached
              · exact wfMiddle.partialOld
            refine .inr ⟨Nat.lt_succ_of_lt old, fun cached => ?_, fun scanning => ?_⟩
            · obtain ⟨_, rfl⟩ := Prod.mk.inj (Option.some.inj cached)
              exact (Nat.ne_of_lt old).symm
            · simp [World.finishScan] at scanning
        | startFold unknown => exact .inl ⟨stands, remembers⟩
        | finishFold running out =>
            refine .inl ⟨stands, fun key answer known => ?_⟩
            exact remembers_finishFold wfMiddle running out key answer (remembers key answer known)
      · exact .inr (retired.step step)

/-- Where the dead set of a tree is the same allocation, it is the same set and every answer
stands. -/
theorem Future.of_sameDead {world next : World Dead} {ast : Ast} (wf : world.WellFormed)
    (future : Future world next)
    (same : sameDead (world.currentDead ast) (next.currentDead ast) = true) :
    next.currentDead ast = world.currentDead ast ∧ world.Remembers next := by
  cases current : world.currentDead ast with
  | none =>
      refine ⟨?_, Future.remembers_of_none wf current future⟩
      rw [current, sameDead, beq_iff_eq] at same
      exact Option.map_eq_none_iff.mp same.symm
  | some set =>
      rcases Future.stands_or_retired wf current future with stands | retired
      · exact stands
      · rw [current, sameDead, beq_iff_eq, Option.map_some, eq_comm, Option.map_eq_some_iff] at same
        obtain ⟨other, found, sameId⟩ := same
        exact absurd sameId (retired.not_current found)

/-! ## Allocations -/

theorem Step.nextId_le {world next : World Dead} (step : Step world next) :
    world.nextId ≤ next.nextId := by
  cases step with
  | startScan idle emptyDead => exact Nat.le_succ _
  | publish scanning contents => exact Nat.le_succ _
  | finishScan scanning address contents => exact Nat.le_succ _
  | startFold unknown => exact Nat.le_refl _
  | finishFold running out => exact Nat.le_refl _

theorem Future.nextId_le {world next : World Dead} (future : Future world next) :
    world.nextId ≤ next.nextId := by
  induction future with
  | refl => exact Nat.le_refl _
  | tail _ step inductionHypothesis => exact Nat.le_trans inductionHypothesis step.nextId_le

/-- Without an allocation the dead sets stand. -/
theorem Future.currentDead_eq {world next : World Dead} (future : Future world next)
    (same : next.nextId = world.nextId) (ast : Ast) :
    next.currentDead ast = world.currentDead ast := by
  induction future with
  | refl => rfl
  | @tail middle last path step inductionHypothesis =>
      have low := Future.nextId_le path
      have high := step.nextId_le
      have before := inductionHypothesis (by omega)
      cases step with
      | startScan idle emptyDead =>
          have : middle.nextId + 1 = world.nextId := same
          omega
      | publish scanning contents =>
          have : middle.nextId + 1 = world.nextId := same
          omega
      | finishScan scanning address contents =>
          have : middle.nextId + 1 = world.nextId := same
          omega
      | startFold unknown => exact before
      | finishFold running out => exact before

theorem sameDead_self (dead : Option (DeadSet Dead)) : sameDead dead dead = true :=
  beq_self_eq_true _

end World

/-! ## Runs -/

section Runs

variable {Out Dead : Type} {code : Code Out Dead} {ast : Ast}

/-- What a run on a tree does to the world. -/
structure Ran (ast : Ast) (scanning : Bool) (world next : World Dead) : Prop where
  future : World.Future world next
  folds : next.truthyInFlight = world.truthyInFlight
  scan : next.deadInFlight = world.deadInFlight
  /-- Outside of a scan only a scan allocates, and it gives the tree a dead set. -/
  quiet : scanning = false → next.nextId = world.nextId ∨
    world.currentDead ast = none ∧ next.currentDead ast ≠ none

theorem Ran.refl (scanning : Bool) (world : World Dead) : Ran ast scanning world world :=
  ⟨Relation.ReflTransGen.refl, rfl, rfl, fun _ => .inl rfl⟩

theorem Ran.weaken {scanning : Bool} {world next : World Dead} (ran : Ran ast false world next) :
    Ran ast scanning world next :=
  ⟨ran.future, ran.folds, ran.scan, fun _ => ran.quiet rfl⟩

theorem Ran.trans {scanning : Bool} {world middle next : World Dead}
    (first : Ran ast scanning world middle) (second : Ran ast scanning middle next) :
    Ran ast scanning world next where
  future := Relation.ReflTransGen.trans first.future second.future
  folds := second.folds.trans first.folds
  scan := second.scan.trans first.scan
  quiet notScanning := by
    rcases first.quiet notScanning with sameFirst | ⟨none, settled⟩
    · rcases second.quiet notScanning with sameSecond | ⟨none, settled⟩
      · exact .inl (sameSecond.trans sameFirst)
      · rw [first.future.currentDead_eq sameFirst] at none
        exact .inr ⟨none, settled⟩
    · rcases second.quiet notScanning with sameSecond | ⟨unsettled, _⟩
      · rw [← second.future.currentDead_eq sameSecond] at settled
        exact .inr ⟨none, settled⟩
      · exact absurd unsettled settled

/-- A fold between its start and its end. -/
theorem Ran.fold {scanning : Bool} {world next : World Dead} {key : TruthyKey}
    (unknown : world.truthyMemo key = none) (absent : key ∉ world.truthyInFlight)
    (ran : Ran ast false (world.startFold key) next) (out : Option Bool) :
    Ran ast scanning world (next.finishFold key out) where
  future := by
    have running : key ∈ next.truthyInFlight := by
      rw [ran.folds]
      exact List.mem_cons_self
    exact .tail (.trans (.single (.startFold unknown)) ran.future) (.finishFold running out)
  folds := by
    have inFlight : next.truthyInFlight = key :: world.truthyInFlight := ran.folds
    simp only [World.finishFold, inFlight]
    rw [List.filter_cons_of_neg (by simp), List.filter_eq_self]
    intro other member
    simp only [ne_eq, decide_eq_true_eq]
    rintro rfl
    exact absent member
  scan := ran.scan
  quiet _ := ran.quiet rfl

/-- A scan between its start and its end. -/
theorem Ran.scanned {scanning : Bool} {world next : World Dead}
    (none : world.currentDead ast = none) {emptyDead : Dead}
    (ran : Ran ast true (world.startScan emptyDead) next) (contents : Dead) :
    Ran ast scanning world (next.finishScan ast.address contents) := by
  have idle := World.deadInFlight_of_currentDead_eq_none none
  have inFlight : next.deadInFlight = true := ran.scan
  refine ⟨.tail (.trans (.single (.startScan idle emptyDead)) ran.future)
    (.finishScan inFlight ast.address contents), ran.folds, idle.symm, fun _ => .inr ⟨none, ?_⟩⟩
  rw [World.currentDead_of_cached rfl]
  simp

theorem exec_ran {fuel : Nat} {scanning : Bool} {Answer : Type}
    {prog : Prog Out Dead scanning Answer} {base own : List Text} {world next : World Dead}
    {answer : Answer} (inScan : scanning = true → world.deadInFlight = true)
    (ran : exec code ast fuel prog base own world = some (next, answer)) :
    Ran ast scanning world next := by
  induction fuel generalizing scanning Answer base own world next with
  | zero => simp [exec] at ran
  | succ fuel inductionHypothesis =>
      cases prog with
      | ret answer' =>
          obtain ⟨rfl, _⟩ := Prod.mk.inj (Option.some.inj ran)
          exact Ran.refl scanning world
      | len continue_ => exact inductionHypothesis inScan ran
      | test key continue_ => exact inductionHypothesis inScan ran
      | visit key cap present full absent =>
          simp only [exec] at ran
          split at ran
          · exact inductionHypothesis inScan ran
          · split at ran
            · exact inductionHypothesis inScan ran
            · exact inductionHypothesis inScan ran
      | pop continue_ => exact inductionHypothesis inScan ran
      | reach query continue_ =>
          simp only [exec] at ran
          obtain ⟨⟨middle, out⟩, body, rest⟩ := Option.bind_eq_some_iff.mp ran
          have first : Ran ast scanning world middle :=
            (inductionHypothesis (fun scanning => absurd scanning (by simp)) body).weaken
          exact first.trans
            (inductionHypothesis (fun scanning => first.scan.trans (inScan scanning)) rest)
      | truthy pred continue_ =>
          simp only [exec] at ran
          split at ran
          · exact inductionHypothesis inScan ran
          case h_2 unknown =>
              split at ran
              · exact inductionHypothesis inScan ran
              case isFalse absent =>
                  obtain ⟨⟨middle, out⟩, folded, rest⟩ := Option.bind_eq_some_iff.mp ran
                  have first : Ran ast scanning world
                      (middle.finishFold (ast.address, pred) out) :=
                    Ran.fold unknown absent (inductionHypothesis
                      (fun scanning => absurd scanning (by simp)) folded) out
                  exact first.trans
                    (inductionHypothesis (fun scanning => first.scan.trans (inScan scanning)) rest)
      | dead continue_ =>
          simp only [exec] at ran
          split at ran
          · exact inductionHypothesis inScan ran
          case h_2 none =>
              obtain ⟨⟨middle, contents⟩, scanned, rest⟩ := Option.bind_eq_some_iff.mp ran
              have first : Ran ast scanning world (middle.finishScan ast.address contents) :=
                Ran.scanned none (inductionHypothesis (fun _ => rfl) scanned) contents
              exact first.trans
                (inductionHypothesis (fun scanning => first.scan.trans (inScan scanning)) rest)
      | publish isScan contents continue_ =>
          have first : Ran ast scanning world (world.publish contents) :=
            ⟨.single (.publish (inScan isScan) contents), rfl, rfl,
              fun notScanning => absurd (notScanning.symm.trans isScan) (by simp)⟩
          exact first.trans (inductionHypothesis (fun scanning => inScan scanning) ran)

/-- More fuel changes nothing. -/
theorem exec_mono {fuel more : Nat} {scanning : Bool} {Answer : Type}
    {prog : Prog Out Dead scanning Answer} {base own : List Text} {world : World Dead}
    {result : World Dead × Answer} (enough : fuel ≤ more)
    (ran : exec code ast fuel prog base own world = some result) :
    exec code ast more prog base own world = some result := by
  induction fuel generalizing scanning Answer base own world more with
  | zero => simp [exec] at ran
  | succ fuel inductionHypothesis =>
      obtain ⟨more, rfl⟩ := Nat.exists_eq_add_one_of_ne_zero (Nat.ne_zero_of_lt enough)
      have enough := Nat.le_of_succ_le_succ enough
      cases prog with
      | ret answer => exact ran
      | len next =>
          simp only [exec] at ran ⊢
          exact inductionHypothesis enough ran
      | test key next =>
          simp only [exec] at ran ⊢
          exact inductionHypothesis enough ran
      | visit key cap present full absent =>
          simp only [exec] at ran ⊢
          split at ran
          case isTrue held =>
              rw [if_pos held]
              exact inductionHypothesis enough ran
          case isFalse free =>
              rw [if_neg free]
              split at ran
              case isTrue capped =>
                  rw [if_pos capped]
                  exact inductionHypothesis enough ran
              case isFalse room =>
                  rw [if_neg room]
                  exact inductionHypothesis enough ran
      | pop next =>
          simp only [exec] at ran ⊢
          exact inductionHypothesis enough ran
      | reach query next =>
          simp only [exec] at ran ⊢
          obtain ⟨⟨middle, out⟩, body, rest⟩ := Option.bind_eq_some_iff.mp ran
          rw [inductionHypothesis enough body, Option.bind_some]
          exact inductionHypothesis enough rest
      | truthy pred next =>
          simp only [exec] at ran ⊢
          cases known : world.truthyMemo (ast.address, pred) with
          | some hit =>
              rw [known] at ran
              exact inductionHypothesis enough ran
          | none =>
              simp only [known] at ran ⊢
              split at ran
              case isTrue running =>
                  rw [if_pos running]
                  exact inductionHypothesis enough ran
              case isFalse absent =>
                  rw [if_neg absent]
                  obtain ⟨⟨middle, out⟩, folded, rest⟩ := Option.bind_eq_some_iff.mp ran
                  rw [inductionHypothesis enough folded, Option.bind_some]
                  exact inductionHypothesis enough rest
      | dead next =>
          simp only [exec] at ran ⊢
          cases current : world.currentDead ast with
          | some set =>
              rw [current] at ran
              exact inductionHypothesis enough ran
          | none =>
              simp only [current] at ran ⊢
              obtain ⟨⟨middle, contents⟩, scanned, rest⟩ := Option.bind_eq_some_iff.mp ran
              rw [inductionHypothesis enough scanned, Option.bind_some]
              exact inductionHypothesis enough rest
      | publish isScan contents next =>
          simp only [exec] at ran ⊢
          exact inductionHypothesis enough ran

theorem exec_unique {fuel other : Nat} {scanning : Bool} {Answer : Type}
    {prog : Prog Out Dead scanning Answer} {base own : List Text} {world : World Dead}
    {first second : World Dead × Answer}
    (ranFirst : exec code ast fuel prog base own world = some first)
    (ranSecond : exec code ast other prog base own world = some second) : first = second := by
  have left := exec_mono (Nat.le_max_left fuel other) ranFirst
  have right := exec_mono (Nat.le_max_right fuel other) ranSecond
  exact Option.some.inj (left.symm.trans right)

end Runs

end Rigor.Infer.Reach
