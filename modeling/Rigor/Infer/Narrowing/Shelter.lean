import Rigor.Infer.Narrowing.Predicates

/-!
# Sheltered bodies

A body is sheltered if no operand, part of a `begin`, blocked clause or test in it lets a fact
outlive what it was learnt from.
-/

namespace Rigor.Infer.Narrowing

open Rigor.Library.Triples

universe u v w

/-- A clause has something to evaluate. -/
def Busy (clauses : List Clause) : Prop :=
  ∃ clause ∈ clauses, clause.exceptions ≠ [] ∨ clause.body ≠ []

/-- A clause that something follows carries no guard past a statement of its own. -/
def ClausesKeep (index : Index) (coarse : List Text) (blocked : Bool) (followed : Prop) :
    List Clause → Prop
  | [] => True
  | clause :: rest =>
      (Busy rest ∨ followed → calmClauses index coarse blocked [clause]) ∧
        ClausesKeep index coarse blocked followed rest

/-- No part of a `begin` that another part follows carries a guard past a statement of its own.
The `else` runs only after the protected statements, so it alone may follow them. -/
def PartsKeep (index : Index) (coarse : List Text) (blocked : Bool) (mainBody : List Node)
    (clauses : List Clause) (elseBody ensureBody : List Node) : Prop :=
  (earlyList index coarse mainBody blocked = true → ¬Busy clauses ∧ ensureBody = []) ∧
    ClausesKeep index coarse blocked (elseBody ≠ [] ∨ ensureBody ≠ []) clauses ∧
      (earlyList index coarse elseBody blocked = true → ensureBody = [])

/-- The body lets no fact outlive what it was learnt from. -/
structure Scene.Sheltered {V : Type u} (scene : Scene V) : Prop where
  /-- What a blocked clause assigns is coarse. -/
  blocked : ∀ node, (true, node) ∈ scene.all → ∀ name ∈ node.binds, name ∈ scene.coarse
  /-- No operand to the right of a guard assigns the guarded local. -/
  operands : ∀ blocked predicate thenBody elseBody isUnless,
    (blocked, .cond predicate thenBody elseBody isUnless) ∈ scene.all →
      OperandsKeep scene.index scene.coarse blocked 64 predicate
  /-- No guard is carried past a statement of a part of a `begin` into a later part. -/
  parts : ∀ blocked mainBody clauses elseBody ensureBody,
    (blocked, .beginRescue mainBody clauses elseBody ensureBody) ∈ scene.all →
      PartsKeep scene.index scene.coarse blocked mainBody clauses elseBody ensureBody
  /-- No local is tested both against a misnaming constant and against one that mints. -/
  tests : scene.TestsAgree
  /-- Classes of a union of tests that the index holds for disjoint from another class of the
  local's tests share no instance with it. -/
  unions : ∀ blocked predicate thenBody elseBody isUnless,
    (blocked, .cond predicate thenBody elseBody isUnless) ∈ scene.all →
      (∀ entry ∈ (scene.index.edgesOf predicate).1, scene.Apart entry) ∧
        ∀ entry ∈ (scene.index.edgesOf predicate).2, scene.Apart entry

/-! ### Bodies that exit -/

section Never

variable {V : Type u} {α : Type v} {β : Type w} {world : World V}

/-- No run completes. -/
def Never (m : Run V α) : Prop :=
  Triple (fun _ => True) m anyEvent (onDone fun _ _ => False)

/-- Some statement about every run. -/
theorem triple_any (m : Run V α) : Triple (fun _ => True) m anyEvent fun _ _ => True :=
  fun _ _ _ _ _ _ => ⟨fun _ _ => trivial, trivial⟩

theorem Never.bind {m : Run V α} (never : Never m) (next : α → Run V β) :
    Never (m.bind next) :=
  Triple.bindDone never fun _ _ _ _ _ start _ => start.elim

theorem Never.of_next {m : Run V α} {next : α → Run V β} (never : ∀ value, Never (next value)) :
    Never (m.bind next) :=
  Triple.bind (triple_any m) never fun _ _ _ => trivial

theorem Never.halt (signal : Signal) : Never (Prog.halt signal : Run V α) :=
  Triple.halt fun _ _ => trivial

variable (world)

mutual

theorem run_never : ∀ (node : Node), stmtTerminates node = true → Never (run world node)
  | .ret values, _ => by
      rw [run]
      exact .of_next fun _ => .halt .left
  | .jump values, _ => by
      rw [run]
      exact .of_next fun _ => .halt .left
  | .jumpLeaf, _ => by
      rw [run]
      exact .halt .left
  | .call id receiver method args safeNav, ends => by
      rw [stmtTerminates, Bool.and_eq_true, beq_iff_eq] at ends
      rcases ends with ⟨isNone, rfl⟩
      rw [Option.isNone_iff_eq_none] at isNone
      subst isNone
      rw [run, runOpt, bind_of_pure]
      apply Triple.either
      · exact Triple.assuming fun skips => nomatch skips.2
      · apply Triple.assuming
        intro _
        apply Never.of_next
        intro _
        apply Never.of_next
        intro _
        rw [answerCall, if_pos rfl]
        exact .halt .raised
  | .beginRescue mainBody clauses elseBody ensureBody, ends => by
      rw [stmtTerminates, Bool.and_eq_true, Bool.and_eq_true] at ends
      rcases ends with ⟨⟨noClauses, noEnsure⟩, inner⟩
      rw [List.isEmpty_iff] at noClauses noEnsure
      subst noClauses noEnsure
      have protected_ : Never (protect (runList world mainBody) (runClauses world [])
          fun values => if elseBody.isEmpty then .pure (values.getLastD world.nil)
            else lastOf world (runList world elseBody)) := by
        by_cases noElse : elseBody.isEmpty = true
        · rw [if_pos noElse] at inner
          apply Triple.settle (runList_never mainBody inner)
          intro ended
          match ended with
          | .done _ => exact fun _ _ _ _ start _ => start.elim
          | .aborted .raised =>
              rw [runClauses]
              exact Triple.halt fun _ _ => trivial
          | .aborted .left => exact Triple.halt fun _ _ => trivial
        · rw [if_neg noElse] at inner
          apply Triple.settle (triple_any _)
          intro ended
          match ended with
          | .done _ =>
              dsimp only
              rw [if_neg noElse]
              exact Never.bind (runList_never elseBody inner) _
          | .aborted .raised =>
              rw [runClauses]
              exact Triple.halt fun _ _ => trivial
          | .aborted .left => exact Triple.halt fun _ _ => trivial
      rw [run]
      apply Triple.settle protected_
      intro ended
      match ended with
      | .done _ => exact fun _ _ _ _ start _ => start.elim
      | .aborted signal =>
          exact (Never.of_next fun _ => Never.halt signal).weakenPre fun _ _ => trivial

theorem runList_never : ∀ (list : List Node), branchTerminates list = true →
    Never (runList world list)
  | [], ends => nomatch ends
  | node :: rest, ends => by
      rw [branchTerminates] at ends
      rw [runList]
      split at ends
      · exact .bind (run_never node ends) _
      · exact .of_next fun _ => .bind (runList_never rest ends) _

end

end Never

end Rigor.Infer.Narrowing
