import Mathlib.Data.List.Basic
import Mathlib.Logic.Function.Basic
import Rigor.Text

/-!
# Reach computations

A `local_reach` computation walks the syntax tree and reads the state of the `Typer` through a few
calls.  Here it is a program over these calls; the syntax tree and what the computation does with it
stay abstract.  A run is given without the memo of `local_reach`.
-/

namespace Rigor.Infer.Reach

/-- The identity of a syntax tree: its address and the length of its arena. -/
structure Ast where
  address : Nat
  len : Nat
  deriving DecidableEq

/-- The arguments of `local_reach` beside the tree and the stack. -/
structure Query where
  root : Text
  useSpan : Nat × Nat
  skipClassGuards : Bool
  deriving DecidableEq

/-- An `expr_truthiness` memo key: a tree address and a predicate node. -/
abbrev TruthyKey := Nat × Nat

instance : LawfulBEq TruthyKey :=
  inferInstance

/-- A program over the calls of a reach computation, answering an `Answer`.  `Out` is what
`local_reach` answers and `Dead` what a dead set holds. -/
inductive Prog (Out Dead : Type) (scanning : Bool) (Answer : Type) : Type where
  | ret (answer : Answer)
  /-- `seen.len()`. -/
  | len (next : Nat → Prog Out Dead scanning Answer)
  /-- `seen_contains(seen, key)`. -/
  | test (key : Text) (next : Bool → Prog Out Dead scanning Answer)
  /-- Every `seen.push(key)` stands behind a test that found the key absent and a check of
  `seen.len()` against a cap. -/
  | visit (key : Text) (cap : Nat) (present full absent : Prog Out Dead scanning Answer)
  /-- `seen.pop()` of a key of its own. -/
  | pop (next : Prog Out Dead scanning Answer)
  | reach (query : Query) (next : Out → Prog Out Dead scanning Answer)
  | truthy (pred : Nat) (next : Option Bool → Prog Out Dead scanning Answer)
  /-- `dead_positions`. -/
  | dead (next : Dead → Prog Out Dead scanning Answer)
  /-- Only the scan behind `dead_positions` publishes. -/
  | publish (inScan : scanning = true) (contents : Dead) (next : Prog Out Dead scanning Answer)

/-- The programs of the code. -/
structure Code (Out Dead : Type) where
  /-- `local_reach_uncached`. -/
  body : Ast → Query → Prog Out Dead false Out
  /-- `expr_truthiness_fold`. -/
  fold : Ast → Nat → Prog Out Dead false (Option Bool)
  /-- The walk of `dead_positions`. -/
  scan : Ast → Prog Out Dead true Dead
  /-- `DeadPositions::default()`. -/
  emptyDead : Dead

/-- A shared dead set, with the identity of its allocation. -/
structure DeadSet (Dead : Type) where
  id : Nat
  contents : Dead

/-- The state of the `Typer` that a computation reads, without the memo. -/
structure World (Dead : Type) where
  deadCache : Option (Nat × DeadSet Dead)
  deadInFlight : Bool
  deadPartial : DeadSet Dead
  truthyMemo : TruthyKey → Option (Option Bool)
  truthyInFlight : List TruthyKey
  truthyProvisional : List TruthyKey
  /-- The identity of the next dead set to be allocated. -/
  nextId : Nat

namespace World

variable {Dead : Type}

/-- A fresh `Typer`. -/
def start (emptyDead : Dead) : World Dead where
  deadCache := none
  deadInFlight := false
  deadPartial := ⟨0, emptyDead⟩
  truthyMemo _ := none
  truthyInFlight := []
  truthyProvisional := []
  nextId := 1

/-- The settled set of the tree, else the partial set of the scan in flight. -/
def currentDead (world : World Dead) (ast : Ast) : Option (DeadSet Dead) :=
  match world.deadCache with
  | some (key, cached) =>
      if key = ast.address then some cached
      else if world.deadInFlight then some world.deadPartial else none
  | none => if world.deadInFlight then some world.deadPartial else none

/-- A scan begins with an empty partial set. -/
def startScan (world : World Dead) (emptyDead : Dead) : World Dead :=
  { world with
    deadInFlight := true
    deadPartial := ⟨world.nextId, emptyDead⟩
    nextId := world.nextId + 1 }

def publish (world : World Dead) (contents : Dead) : World Dead :=
  { world with deadPartial := ⟨world.nextId, contents⟩, nextId := world.nextId + 1 }

/-- The end of a scan settles its set and drops the truthiness answers given during it. -/
def finishScan (world : World Dead) (address : Nat) (contents : Dead) : World Dead :=
  { world with
    deadInFlight := false
    truthyMemo := fun key =>
      if key ∈ world.truthyProvisional then none else world.truthyMemo key
    truthyProvisional := []
    deadCache := some (address, ⟨world.nextId, contents⟩)
    nextId := world.nextId + 1 }

def startFold (world : World Dead) (key : TruthyKey) : World Dead :=
  { world with truthyInFlight := key :: world.truthyInFlight }

def finishFold (world : World Dead) (key : TruthyKey) (out : Option Bool) : World Dead :=
  { world with
    truthyInFlight := world.truthyInFlight.filter (· ≠ key)
    truthyMemo := Function.update world.truthyMemo key (some out)
    truthyProvisional :=
      if world.deadInFlight then key :: world.truthyProvisional else world.truthyProvisional }

end World

variable {Out Dead : Type}

/-- Runs a program on the stack `base ++ own` without the memo of `local_reach`; `own` holds the keys
it pushed. -/
def exec (code : Code Out Dead) (ast : Ast) : Nat → {scanning : Bool} → {Answer : Type} →
    Prog Out Dead scanning Answer → List Text → List Text → World Dead →
    Option (World Dead × Answer)
  | 0, _, _, _, _, _, _ => none
  | fuel + 1, _, _, prog, base, own, world =>
      match prog with
      | .ret answer => some (world, answer)
      | .len next => exec code ast fuel (next (base ++ own).length) base own world
      | .test key next => exec code ast fuel (next (decide (key ∈ base ++ own))) base own world
      | .visit key cap present full absent =>
          if key ∈ base ++ own then exec code ast fuel present base own world
          else if cap ≤ (base ++ own).length then exec code ast fuel full base own world
          else exec code ast fuel absent base (own ++ [key]) world
      | .pop next => exec code ast fuel next base own.dropLast world
      | .reach query next =>
          (exec code ast fuel (code.body ast query) (base ++ own) [] world).bind
            fun (world, out) => exec code ast fuel (next out) base own world
      | .truthy pred next =>
          match world.truthyMemo (ast.address, pred) with
          | some hit => exec code ast fuel (next hit) base own world
          | none =>
              if (ast.address, pred) ∈ world.truthyInFlight then
                exec code ast fuel (next none) base own world
              else
                (exec code ast fuel (code.fold ast pred) (base ++ own) []
                    (world.startFold (ast.address, pred))).bind
                  fun (world, out) => exec code ast fuel (next out) base own
                    (world.finishFold (ast.address, pred) out)
      | .dead next =>
          match world.currentDead ast with
          | some set => exec code ast fuel (next set.contents) base own world
          | none =>
              (exec code ast fuel (code.scan ast) (base ++ own) []
                  (world.startScan code.emptyDead)).bind
                fun (world, contents) => exec code ast fuel (next contents) base own
                  (world.finishScan ast.address contents)
      | .publish _ contents next => exec code ast fuel next base own (world.publish contents)

end Rigor.Infer.Reach
