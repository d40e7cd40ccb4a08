import Mathlib.Logic.Function.Basic
import Rigor.Infer.Narrowing.Syntax
import Rigor.Library.Triples

/-!
# Runs of method bodies

A run changes the locals, may be cut short by a raise or by a jump out of the body, and records
each executed call on a bare local with the value its receiver had.  A call may raise or return
whatever its world lets it answer.
-/

namespace Rigor.Infer.Narrowing

open Rigor.Library.Triples

universe u v w

/-- What the values of a run are and what they answer. -/
structure World (V : Type u) where
  nil : V
  truthy : V → Prop
  constant : Text → V
  /-- The first value is an instance of the class that the second one is, or of a subclass. -/
  instanceOf : V → V → Prop
  /-- The class of the first value is the second one. -/
  classOf : V → V → Prop
  /-- A value is an instance of the class that the class index knows under this name, or of a
  subclass. -/
  isA : V → Text → Prop
  /-- The results a call on a receiver may return. -/
  answers : V → Text → List V → V → Prop

/-- Why a run was cut short: a raise, or a `return`, `next` or `break`. -/
inductive Signal where
  | raised
  | left

/-- The programs of a method body: they record the ids of calls with their receivers. -/
abbrev Run (V : Type u) := Prog (Text → V) (Nat × V) Signal

section Steps

variable {V : Type u} (world : World V)

/-- Some value. -/
def someValue : Run V V :=
  .choose fun _ => True

def setLocal (name : Text) (value : V) : Run V V :=
  (Prog.modify fun s => Function.update s name value).bind fun _ => .pure value

def setLocals (names : List Text) (value : V) : Run V V :=
  (Prog.choose fun _ : Text → V => True).bind fun values =>
    (Prog.modify fun s name => if name ∈ names then values name else s name).bind fun _ =>
      .pure value

/-- The record of a call on a bare local. -/
def recordCall (id : Nat) (receiver : Option Node) (callee : Option V) : Run V Unit :=
  match receiver.bind bareLocal, callee with
  | some _, some value => .emit (id, value)
  | _, _ => .pure ()

/-- A call raises or answers.  A `raise` without a receiver raises. -/
def answerCall (callee : Option V) (method : Text) (args : List V) : Run V V :=
  match callee with
  | some value => .either (.halt .raised) (.choose (world.answers value method args))
  | none => if method = "raise".toList then .halt .raised else .either (.halt .raised) someValue

/-- The value of the last statement. -/
def lastOf (m : Run V (List V)) : Run V V :=
  m.bind fun values => .pure (values.getLastD world.nil)

/-- The result of testing a `when` constant. -/
def testConstant (constant : Text) (subject : Option V) : Run V V :=
  match subject with
  | some value =>
      .either (.halt .raised)
        (.choose (world.answers (world.constant constant) "===".toList [value]))
  | none => .either (.halt .raised) (.pure (world.constant constant))

def bindException (boundName : Option Text) : Run V Unit :=
  match boundName with
  | none => .pure ()
  | some name => someValue.bind fun value => .modify fun s => Function.update s name value

/-- A protected program with what rescues a raise and what follows a completed run. -/
def protect (main : Run V (List V)) (rescue : Run V V) (otherwise : List V → Run V V) :
    Run V V :=
  main.settle fun
    | .done values => otherwise values
    | .aborted .raised => rescue
    | .aborted .left => .halt .left

/-- One of two programs, by a condition. -/
def branch (condition : Prop) (first second : Run V V) : Run V V :=
  .either (.assuming condition first) (.assuming (¬condition) second)

end Steps

section Run

variable {V : Type u} (world : World V)

mutual

def run : Node → Run V V
  | .localRead name => .read fun s => s name
  | .variableRead => someValue
  | .constantRead name => .either (.halt .raised) (.pure (world.constant name))
  | .nilLit => .pure world.nil
  | .leaf => someValue
  | .localWrite name value => (run value).bind (setLocal name)
  | .localOpWrite name value =>
      .either (.read fun s => s name)
        ((run value).bind fun _ =>
          .either (.halt .raised) (someValue.bind (setLocal name)))
  | .multiWrite targets value =>
      (run value).bind fun value => .either (.halt .raised) (setLocals targets value)
  | .call id receiver method args safeNav =>
      (runOpt receiver).bind fun callee =>
        branch (safeNav = true ∧ callee = some world.nil) (.pure world.nil)
          ((recordCall id receiver callee).bind fun _ =>
            (runList args).bind (answerCall world callee method))
  | .logical isAnd left right =>
      (run left).bind fun value => branch (isAnd = true ↔ world.truthy value) (run right)
        (.pure value)
  | .cond predicate thenBody elseBody isUnless =>
      (run predicate).bind fun value =>
        branch (world.truthy value ↔ isUnless = false) (lastOf world (runList thenBody))
          (lastOf world (runList elseBody))
  | .case_ subject branches elseBody =>
      (runOpt subject).bind fun value =>
        runBranches branches value (lastOf world (runList elseBody))
  | .beginRescue mainBody clauses elseBody ensureBody =>
      (protect (runList mainBody) (runClauses clauses) fun values =>
        if elseBody.isEmpty then .pure (values.getLastD world.nil)
        else lastOf world (runList elseBody)).settle fun ended =>
          (runList ensureBody).bind fun _ => .exit ended
  | .ret values => (runList values).bind fun _ => .halt .left
  | .jump values => (runList values).bind fun _ => .halt .left
  | .jumpLeaf => .halt .left

def runOpt : Option Node → Run V (Option V)
  | none => .pure none
  | some node => (run node).bind fun value => .pure (some value)

def runList : List Node → Run V (List V)
  | [] => .pure []
  | node :: rest =>
      (run node).bind fun value => (runList rest).bind fun values => .pure (value :: values)

/-- The first clause whose constant matches, or the `else`. -/
def runBranches : List Branch → Option V → Run V V → Run V V
  | [], _, otherwise => otherwise
  | .mk constant body :: rest, subject, otherwise =>
      (testConstant world constant subject).bind fun result =>
        branch (world.truthy result) (lastOf world (runList body))
          (runBranches rest subject otherwise)

/-- The first clause that matches the exception, or the raise goes on. -/
def runClauses : List Clause → Run V V
  | [] => .halt .raised
  | .mk _ boundName exceptions body :: rest =>
      (runList exceptions).bind fun _ =>
        .either ((bindException boundName).bind fun _ => lastOf world (runList body))
          (runClauses rest)

end

end Run

/-! ### What a run leaves alone -/

/-- The stores differ at most in some names. -/
def Agrees {V : Type u} (start : Text → V) (names : List Text) (s : Text → V) : Prop :=
  ∀ name, name ∉ names → s name = start name

/-- What runs of some nodes can change and record is within these names and ids. -/
structure Within (found : List (Bool × Node)) (names : List Text) (ids : List Nat) : Prop where
  assigned : ∀ name ∈ assignedIn found, name ∈ names
  callIds : ∀ id ∈ callIdsIn found, id ∈ ids

namespace Within

variable {front back : List (Bool × Node)} {entry : Bool × Node} {names : List Text}
  {ids : List Nat}

theorem left (within : Within (front ++ back) names ids) : Within front names ids := by
  constructor
  · intro name mem
    exact within.assigned name (by rw [assignedIn_append]; exact List.mem_append_left _ mem)
  · intro id mem
    exact within.callIds id (by rw [callIdsIn_append]; exact List.mem_append_left _ mem)

theorem right (within : Within (front ++ back) names ids) : Within back names ids := by
  constructor
  · intro name mem
    exact within.assigned name (by rw [assignedIn_append]; exact List.mem_append_right _ mem)
  · intro id mem
    exact within.callIds id (by rw [callIdsIn_append]; exact List.mem_append_right _ mem)

theorem tail (within : Within (entry :: back) names ids) : Within back names ids :=
  right (show Within ([entry] ++ back) names ids from within)

theorem binds (within : Within (entry :: back) names ids) :
    ∀ name ∈ entry.2.binds, name ∈ names := by
  intro name mem
  apply within.assigned
  rw [assignedIn_cons]
  exact List.mem_append_left _ (List.mem_append_left _ mem)

end Within

/-- Every run changes these names only and records these ids only. -/
def Confined {V : Type u} {α : Type v} (start : Text → V) (names : List Text) (ids : List Nat)
    (m : Run V α) : Prop :=
  Keeps (Agrees start names) m fun event => event.1 ∈ ids

section Confined

variable {V : Type u} (world : World V) {start : Text → V} {names : List Text} {ids : List Nat}

theorem Agrees.update {s : Text → V} {name : Text} (agrees : Agrees start names s)
    (mem : name ∈ names) (value : V) : Agrees start names (Function.update s name value) := by
  intro other notMem
  have different : other ≠ name := fun same => notMem (same ▸ mem)
  rw [Function.update_of_ne different]
  exact agrees other notMem

namespace Confined

theorem pure {α : Type v} {value : α} : Confined start names ids (.pure value) :=
  Triple.pure fun _ => id

theorem halt {α : Type v} {signal : Signal} :
    Confined start names ids (.halt signal : Run V α) :=
  Triple.halt fun _ => id

theorem exit {α : Type v} {ended : Exit Signal α} : Confined start names ids (.exit ended) :=
  Triple.exit fun _ => id

theorem choose {α : Type v} {allowed : α → Prop} :
    Confined start names ids (.choose allowed) :=
  Triple.choose fun _ _ _ => id

theorem either {α : Type v} {m n : Run V α} (first : Confined start names ids m)
    (second : Confined start names ids n) : Confined start names ids (.either m n) :=
  Triple.either first second

theorem bind {α : Type v} {β : Type w} {m : Run V α} {next : α → Run V β}
    (first : Confined start names ids m) (rest : ∀ value, Confined start names ids (next value)) :
    Confined start names ids (m.bind next) :=
  Triple.bind first rest fun _ _ => id

theorem settle {α : Type v} {β : Type w} {m : Run V α} {next : Exit Signal α → Run V β}
    (first : Confined start names ids m) (rest : ∀ ended, Confined start names ids (next ended)) :
    Confined start names ids (m.settle next) :=
  Triple.settle first rest

theorem branch {condition : Prop} {m n : Run V V} (first : Confined start names ids m)
    (second : Confined start names ids n) :
    Confined start names ids (Narrowing.branch condition m n) :=
  either (Triple.assuming fun _ => first) (Triple.assuming fun _ => second)

theorem lastOf {m : Run V (List V)} (inner : Confined start names ids m) :
    Confined start names ids (lastOf world m) :=
  bind inner fun _ => pure

theorem protect {main : Run V (List V)} {rescue : Run V V} {otherwise : List V → Run V V}
    (first : Confined start names ids main) (second : Confined start names ids rescue)
    (third : ∀ values, Confined start names ids (otherwise values)) :
    Confined start names ids (protect main rescue otherwise) := by
  apply settle first
  intro ended
  match ended with
  | .done values => exact third values
  | .aborted .raised => exact second
  | .aborted .left => exact halt

theorem modify {change : (Text → V) → Text → V}
    (keeps : ∀ s, Agrees start names s → Agrees start names (change s)) :
    Confined start names ids (.modify change) :=
  Triple.modify keeps

theorem setLocal {name : Text} (mem : name ∈ names) (value : V) :
    Confined start names ids (setLocal name value) :=
  bind (modify fun _ agrees => agrees.update mem value) fun _ => pure

theorem setLocals {targets : List Text} (mem : ∀ name ∈ targets, name ∈ names) (value : V) :
    Confined start names ids (setLocals targets value) := by
  apply bind choose
  intro values
  apply bind (modify ?_) fun _ => pure
  intro s agrees name notMem
  have other : name ∉ targets := fun inTargets => notMem (mem name inTargets)
  exact (if_neg other).trans (agrees name notMem)

theorem recordCall {id : Nat} (mem : id ∈ ids) (receiver : Option Node) (callee : Option V) :
    Confined start names ids (recordCall id receiver callee) := by
  unfold Narrowing.recordCall
  split
  · exact Triple.emit fun _ agrees => ⟨mem, agrees⟩
  · exact pure

theorem answerCall (callee : Option V) (method : Text) (args : List V) :
    Confined start names ids (answerCall world callee method args) := by
  unfold Narrowing.answerCall
  split
  · exact either halt choose
  · split
    · exact halt
    · exact either halt choose

theorem testConstant (constant : Text) (subject : Option V) :
    Confined start names ids (testConstant world constant subject) := by
  unfold Narrowing.testConstant
  split
  · exact either halt choose
  · exact either halt pure

theorem bindException {boundName : Option Text} (mem : ∀ name ∈ boundName, name ∈ names) :
    Confined start names ids (bindException (V := V) boundName) := by
  unfold Narrowing.bindException
  split
  · exact pure
  · rename_i name
    exact bind choose fun value => modify fun _ agrees => agrees.update (mem name rfl) value

end Confined

mutual

theorem run_confined : ∀ (node : Node) (blocked : Bool),
    Within (nodes node blocked) names ids → Confined start names ids (run world node)
  | .localRead _, _, _ => Triple.read fun _ => id
  | .variableRead, _, _ => .choose
  | .constantRead _, _, _ => .either .halt .pure
  | .nilLit, _, _ => .pure
  | .leaf, _, _ => .choose
  | .localWrite name value, blocked, within => by
      rw [nodes] at within
      exact .bind (run_confined value blocked within.tail)
        (.setLocal (within.binds name List.mem_cons_self))
  | .localOpWrite name value, blocked, within => by
      rw [nodes] at within
      apply Confined.either (Triple.read fun _ => id)
      apply Confined.bind (run_confined value blocked within.tail)
      intro _
      exact .either .halt (.bind .choose (.setLocal (within.binds name List.mem_cons_self)))
  | .multiWrite targets value, blocked, within => by
      rw [nodes] at within
      exact .bind (run_confined value blocked within.tail) fun value =>
        .either .halt (.setLocals within.binds value)
  | .call id receiver method args safeNav, blocked, within => by
      rw [nodes] at within
      have own : id ∈ ids := within.callIds id (by simp [Node.callId])
      apply Confined.bind (runOpt_confined receiver blocked within.tail.left)
      intro callee
      apply Confined.branch .pure
      apply Confined.bind (.recordCall own receiver callee)
      intro _
      exact .bind (runList_confined args blocked within.tail.right)
        (.answerCall world callee method)
  | .logical _ left right, blocked, within => by
      rw [nodes] at within
      exact .bind (run_confined left blocked within.tail.left) fun _ =>
        .branch (run_confined right blocked within.tail.right) .pure
  | .cond predicate thenBody elseBody _, blocked, within => by
      rw [nodes] at within
      exact .bind (run_confined predicate blocked within.tail.left) fun _ =>
        .branch (.lastOf world (runList_confined thenBody blocked within.tail.right.left))
          (.lastOf world (runList_confined elseBody blocked within.tail.right.right))
  | .case_ subject branches elseBody, blocked, within => by
      rw [nodes] at within
      exact .bind (runOpt_confined subject blocked within.tail.left) fun value =>
        runBranches_confined branches blocked value within.tail.right.left
          (.lastOf world (runList_confined elseBody blocked within.tail.right.right))
  | .beginRescue mainBody clauses elseBody ensureBody, blocked, within => by
      rw [nodes] at within
      have inner := within.tail
      have bound : ∀ name ∈ boundNames clauses, name ∈ names := by
        intro name mem
        apply within.assigned
        rw [assignedIn_cons]
        exact List.mem_append_left _ (List.mem_append_right _ mem)
      apply Confined.settle
      · apply Confined.protect (runList_confined mainBody blocked inner.left)
          (runClauses_confined clauses blocked inner.right.left bound)
        intro _
        split
        · exact .pure
        · exact .lastOf world (runList_confined elseBody blocked inner.right.right.left)
      · intro ended
        exact .bind (runList_confined ensureBody blocked inner.right.right.right) fun _ => .exit
  | .ret values, blocked, within => by
      rw [nodes] at within
      exact .bind (runList_confined values blocked within.tail) fun _ => .halt
  | .jump values, blocked, within => by
      rw [nodes] at within
      exact .bind (runList_confined values blocked within.tail) fun _ => .halt
  | .jumpLeaf, _, _ => .halt

theorem runOpt_confined : ∀ (node : Option Node) (blocked : Bool),
    Within (nodesOpt node blocked) names ids → Confined start names ids (runOpt world node)
  | none, _, _ => .pure
  | some node, blocked, within => by
      rw [nodesOpt] at within
      exact .bind (run_confined node blocked within) fun _ => .pure

theorem runList_confined : ∀ (list : List Node) (blocked : Bool),
    Within (nodesList list blocked) names ids → Confined start names ids (runList world list)
  | [], _, _ => .pure
  | node :: rest, blocked, within => by
      rw [nodesList] at within
      exact .bind (run_confined node blocked within.left) fun _ =>
        .bind (runList_confined rest blocked within.right) fun _ => .pure

theorem runBranches_confined : ∀ (branches : List Branch) (blocked : Bool) (subject : Option V)
    {otherwise : Run V V}, Within (nodesBranches branches blocked) names ids →
    Confined start names ids otherwise →
    Confined start names ids (runBranches world branches subject otherwise)
  | [], _, _, _, _, rest => rest
  | .mk constant body :: others, blocked, subject, _, within, rest => by
      rw [nodesBranches] at within
      exact .bind (.testConstant world constant subject) fun _ =>
        .branch (.lastOf world (runList_confined body blocked within.left))
          (runBranches_confined others blocked subject within.right rest)

theorem runClauses_confined : ∀ (clauses : List Clause) (blocked : Bool),
    Within (nodesClauses clauses blocked) names ids →
    (∀ name ∈ boundNames clauses, name ∈ names) →
    Confined start names ids (runClauses world clauses)
  | [], _, _, _ => .halt
  | .mk inBlocked boundName exceptions body :: rest, blocked, within, bound => by
      rw [nodesClauses] at within
      have here : ∀ name ∈ boundName, name ∈ names := by
        intro name mem
        apply bound
        apply List.mem_filterMap.mpr
        exact ⟨_, List.mem_cons_self, mem⟩
      have later : ∀ name ∈ boundNames rest, name ∈ names := by
        intro name mem
        rcases List.mem_filterMap.mp mem with ⟨clause, inRest, named⟩
        exact bound name (List.mem_filterMap.mpr ⟨clause, List.mem_cons_of_mem _ inRest, named⟩)
      apply Confined.bind (runList_confined exceptions (blocked || inBlocked) within.left)
      intro _
      apply Confined.either
      · exact .bind (.bindException here) fun _ =>
          .lastOf world (runList_confined body (blocked || inBlocked) within.right.left)
      · exact runClauses_confined rest blocked within.right.right later

end

end Confined
end Rigor.Infer.Narrowing
