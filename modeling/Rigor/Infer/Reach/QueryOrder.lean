import Rigor.Infer.Reach.Calls
import Rigor.Infer.Reach.Clean
import Rigor.Infer.Reach.Locals

/-!
# The order of truthiness queries

The truthiness memo keeps what a fold answered on the stack and among the folds of its first visit.
So two queries on a settled tree answer the same in both orders if each of them is clean when it is
asked first.
-/

namespace Rigor.Infer.Reach

variable {Out Dead : Type} {code : Code Out Dead} {ast : Ast}

/-- `expr_truthiness` on an empty stack at the address `stack`. -/
def ask (code : Code Out Dead) (ast : Ast) (fuel : Nat) (stack pred : Nat)
    (typer : Typer Out Dead) : Option (Typer Out Dead × Option Bool) :=
  execMemo code ast stack fuel (.truthy pred .ret : Prog Out Dead false (Option Bool)) [] [] typer

/-- Two queries in this order, with the state after them. -/
def askBoth (code : Code Out Dead) (ast : Ast) (fuel : Nat) (stack first second : Nat)
    (typer : Typer Out Dead) : Option (Typer Out Dead × Option Bool × Option Bool) :=
  (ask code ast fuel stack first typer).bind fun (typer, answer) =>
    (ask code ast fuel stack second typer).map fun (typer, other) => (typer, answer, other)

/-- The query runs clean when it is asked in this state. -/
def CleanQuery (code : Code Out Dead) (ast : Ast) (set : DeadSet Dead) (pred : Nat)
    (world : World Dead) : Prop :=
  ∃ next answer, Clean code ast set.contents (.truthy pred .ret : Prog Out Dead false (Option Bool))
    [] [] [] world next answer

theorem Idle.ask {fuel stack pred : Nat} {typer next : Typer Out Dead} {answer : Option Bool}
    (idle : Idle code typer) (asked : ask code ast fuel stack pred typer = some (next, answer))
    (noWrap : next.wrapped = false) :
    Idle code next ∧ ∃ fuel', exec code ast fuel'
      (.truthy pred .ret : Prog Out Dead false (Option Bool)) [] [] typer.world =
        some (next.world, answer) :=
  idle.execMemo List.nodup_nil asked noWrap

theorem ask_noWrap {fuel stack pred : Nat} {typer next : Typer Out Dead} {answer : Option Bool}
    (asked : ask code ast fuel stack pred typer = some (next, answer))
    (noWrap : next.wrapped = false) : typer.wrapped = false :=
  execMemo_noWrap asked noWrap

/-- After a clean query, a clean query answers as it does before it. -/
theorem ask_after {set : DeadSet Dead} {fuel stack first second : Nat}
    {typer after last : Typer Out Dead} {answer other alone : Option Bool} {world : World Dead}
    (idle : Idle code typer) (settled : Settled ast set typer.world)
    (cleanFirst : CleanQuery code ast set first typer.world)
    (cleanSecond : Clean code ast set.contents
      (.truthy second .ret : Prog Out Dead false (Option Bool)) [] [] [] typer.world world alone)
    (askedFirst : ask code ast fuel stack first typer = some (after, answer))
    (askedSecond : ask code ast fuel stack second after = some (last, other))
    (noWrap : last.wrapped = false) : other = alone := by
  obtain ⟨next, answer', clean⟩ := cleanFirst
  obtain ⟨idleAfter, _, ranFirst⟩ := idle.ask askedFirst (ask_noWrap askedSecond noWrap)
  obtain ⟨_, _, ranSecond⟩ := idleAfter.ask askedSecond noWrap
  obtain ⟨_, ranClean⟩ := clean.exec settled
  obtain ⟨sameWorld, _⟩ := Prod.mk.inj (exec_unique ranClean ranFirst)
  obtain ⟨settledNext, within, running⟩ := clean.settled settled
  obtain ⟨last', replayed, _⟩ := cleanSecond.replay settled settledNext within (fun _ _ found => found)
    (clean.closed settled (Closed.self _ _)) running
  obtain ⟨_, ranReplayed⟩ := replayed.exec settledNext
  rw [sameWorld] at ranReplayed
  exact (Prod.mk.inj (exec_unique ranSecond ranReplayed)).2

/-- The first of two queries answers as it does alone. -/
theorem ask_alone {set : DeadSet Dead} {fuel stack pred : Nat} {typer after : Typer Out Dead}
    {answer alone : Option Bool} {world : World Dead} (idle : Idle code typer)
    (settled : Settled ast set typer.world)
    (clean : Clean code ast set.contents (.truthy pred .ret : Prog Out Dead false (Option Bool))
      [] [] [] typer.world world alone)
    (asked : ask code ast fuel stack pred typer = some (after, answer))
    (noWrap : after.wrapped = false) : answer = alone := by
  obtain ⟨_, _, ran⟩ := idle.ask asked noWrap
  obtain ⟨_, ranClean⟩ := clean.exec settled
  exact (Prod.mk.inj (exec_unique ran ranClean)).2

theorem askBoth_cases {fuel stack first second : Nat} {typer last : Typer Out Dead}
    {answers : Option Bool × Option Bool}
    (asked : askBoth code ast fuel stack first second typer = some (last, answers)) :
    ∃ after, ask code ast fuel stack first typer = some (after, answers.1) ∧
      ask code ast fuel stack second after = some (last, answers.2) := by
  obtain ⟨⟨after, answer⟩, askedFirst, rest⟩ := Option.bind_eq_some_iff.mp asked
  obtain ⟨⟨last', other⟩, askedSecond, same⟩ := Option.map_eq_some_iff.mp rest
  obtain ⟨rfl, rfl⟩ := Prod.mk.inj same
  exact ⟨after, askedFirst, askedSecond⟩

/-- On a tree that has its dead set, two queries that are clean when asked first answer the same in
both orders. -/
theorem query_order {fuel fuel' fuel'' : Nat} {calls : List (Call Out Dead)}
    {typer last last' : Typer Out Dead} {set : DeadSet Dead} {p q stack stack' : Nat}
    {answers answers' : Option Bool × Option Bool}
    (ran : runCalls code fuel calls = some typer)
    (settled : typer.world.deadCache = some (ast.address, set))
    (cleanP : CleanQuery code ast set p typer.world) (cleanQ : CleanQuery code ast set q typer.world)
    (asked : askBoth code ast fuel' stack p q typer = some (last, answers))
    (swapped : askBoth code ast fuel'' stack' q p typer = some (last', answers'))
    (noWrap : last.wrapped = false) (noWrap' : last'.wrapped = false) :
    answers = answers'.swap := by
  obtain ⟨after, askedP, askedQ⟩ := askBoth_cases asked
  obtain ⟨after', askedQ', askedP'⟩ := askBoth_cases swapped
  have noWrapAfter := ask_noWrap askedQ noWrap
  have idle := idle_start.runCalls ran (ask_noWrap askedP noWrapAfter)
  have settledWorld : Settled ast set typer.world :=
    ⟨(idle.inv 0).wf, World.currentDead_of_cached settled⟩
  obtain ⟨_, _, aloneP⟩ := cleanP
  obtain ⟨_, _, aloneQ⟩ := cleanQ
  have firstP := ask_alone idle settledWorld aloneP askedP noWrapAfter
  have firstQ := ask_alone idle settledWorld aloneQ askedQ' (ask_noWrap askedP' noWrap')
  have secondQ := ask_after idle settledWorld ⟨_, _, aloneP⟩ aloneQ askedP askedQ noWrap
  have secondP := ask_after idle settledWorld ⟨_, _, aloneQ⟩ aloneP askedQ' askedP' noWrap'
  exact Prod.ext (firstP.trans secondP.symm) (secondQ.trans firstQ.symm)

/-- The fold of `0` tests `k`; the fold of `1` pushes `j` and asks `0`. -/
def chainCode : Code Unit Unit where
  body _ _ := .ret ()
  fold _ pred :=
    match pred with
    | 0 => .test ['k'] fun held => .ret (some !held)
    | _ => .visit ['j'] 4 (.ret none) (.ret none) (.truthy 0 fun out => .pop (.ret out))
  scan _ := .ret ()
  emptyDead := ()

def chainScan : Call Unit Unit :=
  ⟨⟨1, 1⟩, 0, [], List.nodup_nil, .dead fun _ => .ret ()⟩

theorem query_order_chain : ∃ typer last last' answers answers',
    runCalls chainCode 10 [chainScan] = some typer ∧
      askBoth chainCode chainScan.ast 10 0 1 0 typer = some (last, answers) ∧
      askBoth chainCode chainScan.ast 10 0 0 1 typer = some (last', answers') ∧
      answers = answers'.swap :=
  ⟨_, _, _, _, _, rfl, rfl, rfl, @query_order _ _ chainCode chainScan.ast 10 10 10 [chainScan] _ _ _
    ⟨2, ()⟩ 1 0 0 0 _ _ rfl rfl
    ⟨_, _, .folded rfl List.not_mem_nil (.step rfl rfl (.folded rfl (by decide)
      (.step rfl rfl .ret) (.step rfl rfl .ret))) .ret⟩
    ⟨_, _, .folded rfl List.not_mem_nil (.step rfl rfl .ret) .ret⟩ rfl rfl rfl rfl⟩

/-! ## A starved fold -/

open Locals (LoweredAst ReachOut DeadPositions)

/-- `q = 1`, `d = q ? 1 : 2`, `c = d`, `b = c`, `a = b` and `if a` on lines of their own. -/
def starvedAst : LoweredAst where
  nodes := [(.literal (.int 1), (4, 5)), (.localVariableWrite ['q'] 0, (0, 5)),
    (.localVariableRead ['q'], (10, 11)), (.literal (.int 1), (14, 15)),
    (.literal (.int 2), (18, 19)), (.beginRescue [4], (16, 19)),
    (.ifNode 2 [3] [5] false, (10, 19)), (.localVariableWrite ['d'] 6, (6, 19)),
    (.localVariableRead ['d'], (24, 25)), (.localVariableWrite ['c'] 8, (20, 25)),
    (.localVariableRead ['c'], (30, 31)), (.localVariableWrite ['b'] 10, (26, 31)),
    (.localVariableRead ['b'], (36, 37)), (.localVariableWrite ['a'] 12, (32, 37)),
    (.localVariableRead ['a'], (41, 42)), (.ifNode 14 [] [] false, (38, 46)),
    (.program [1, 7, 9, 11, 13, 15], (0, 46))]
  root := 16
  blocked := []
  discarded := []

def starvedTree : Ast :=
  ⟨1, 17⟩

def starvedCode : Code ReachOut DeadPositions :=
  Locals.code fun _ => starvedAst

/-- The scan of the tree. -/
def scanCall : Call ReachOut DeadPositions :=
  ⟨starvedTree, 0, [], List.nodup_nil, .dead fun _ => .ret ()⟩

/-- The answers of two queries after the scan, in both orders. -/
def bothOrders (code : Code Out Dead) (fuel : Nat) (scan : Call Out Dead) (p q : Nat) :
    Option ((Option Bool × Option Bool) × (Option Bool × Option Bool)) :=
  (runCalls code fuel [scan]).bind fun typer =>
    (askBoth code scan.ast fuel 0 p q typer).bind fun (_, answers) =>
      (askBoth code scan.ast fuel 0 q p typer).map fun (_, swapped) => (answers, swapped)

/-- The read of `a` finds the fold of `q` without fuel, so `q` has no answer after it. -/
theorem query_order_starved :
    bothOrders starvedCode 100 scanCall 14 2 = some ((none, none), (some true, none)) := by
  decide +kernel

end Rigor.Infer.Reach
