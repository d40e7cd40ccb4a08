import Rigor.Infer.Reach.Program
import Rigor.Types.Ty

/-!
# Programs over locals

The computations of the `Typer` on files whose statements are writes and reads of locals, literals,
`&&`, `||`, `if` and `unless`: no scopes, calls, loops or rescue clauses.  Recursions over the tree
take its size as fuel; the children of a node stand before it in the arena.
-/

namespace Rigor.Infer.Reach

instance {Out Dead : Type} {scanning : Bool} : Monad (Prog Out Dead scanning) where
  pure := .ret
  bind := bind
where
  bind {α β : Type} : Prog Out Dead scanning α → (α → Prog Out Dead scanning β) →
      Prog Out Dead scanning β
    | .ret answer, rest => rest answer
    | .len next, rest => .len fun n => bind (next n) rest
    | .test key next, rest => .test key fun held => bind (next held) rest
    | .visit key cap present full absent, rest =>
        .visit key cap (bind present rest) (bind full rest) (bind absent rest)
    | .pop next, rest => .pop (bind next rest)
    | .reach query next, rest => .reach query fun out => bind (next out) rest
    | .truthy pred next, rest => .truthy pred fun out => bind (next out) rest
    | .dead next, rest => .dead fun contents => bind (next contents) rest
    | .publish isScan contents next, rest => .publish isScan contents (bind next rest)

end Rigor.Infer.Reach

namespace Rigor.Infer.Locals

open Rigor.Infer.Reach (Prog Code Query Ast)

abbrev Span := Nat × Nat

/-- `contains`. -/
def contains (outer inner : Span) : Bool :=
  outer.1 ≤ inner.1 && inner.2 ≤ outer.2

inductive Node where
  | program (body : List Nat)
  | literal (scalar : Types.Scalar)
  | localVariableRead (name : Text)
  | localVariableWrite (name : Text) (value : Nat)
  | ifNode (predicate : Nat) (thenBody elseBody : List Nat) (isUnless : Bool)
  | logical (left right : Nat) (isAnd : Bool)
  /-- Without clauses: what an `else` lowers to. -/
  | beginRescue (body : List Nat)

/-- The nodes in arena order, with their spans. -/
structure LoweredAst where
  nodes : List (Node × Span)
  root : Nat
  blocked : List Span
  discarded : List Span

namespace LoweredAst

def get (ast : LoweredAst) (id : Nat) : Node :=
  (ast.nodes.getD id (.literal .nil, (0, 0))).1

def span (ast : LoweredAst) (id : Nat) : Span :=
  (ast.nodes.getD id (.literal .nil, (0, 0))).2

def inBlockedCarrier (ast : LoweredAst) (span : Span) : Bool :=
  ast.blocked.any (contains · span)

def fuel (ast : LoweredAst) : Nat :=
  ast.nodes.length + 1

end LoweredAst

structure Reach where
  untyped : Bool
  precise : Bool
  multi : Bool
  pinned : Bool
  deriving DecidableEq

namespace Reach

/-- `Reach::NONE`. -/
def none : Reach := ⟨false, false, false, true⟩

/-- `Reach::UNTYPED`. -/
def untypedOnly : Reach := ⟨true, false, false, false⟩

/-- `Reach::LITERAL`. -/
def literal : Reach := ⟨false, true, false, true⟩

/-- `Reach::OPAQUE`. -/
def unpinned : Reach := ⟨false, true, false, false⟩

/-- `Reach::UNKNOWN`. -/
def unknown : Reach := ⟨true, true, true, false⟩

def join (self other : Reach) : Reach where
  untyped := self.untyped || other.untyped
  precise := self.precise || other.precise
  multi := self.multi || other.multi || (self.precise && other.precise)
  pinned := self.pinned && other.pinned

end Reach

/-- What `local_reach` answers. -/
abbrev ReachOut := Reach × Option Types.Scalar

/-- The hulls of the folded arms and the arms a join drops. -/
structure DeadPositions where
  folded : List Span
  dropped : List Span

namespace DeadPositions

def writeReaches (dead : DeadPositions) (write use : Span) : Bool :=
  if dead.folded.any (contains · write) then false
  else !dead.dropped.any fun d => contains d write && !(d.1 ≤ use.1 && use.1 < d.2)

def covers (dead : DeadPositions) (span : Span) : Bool :=
  dead.folded.any (contains · span)

end DeadPositions

/-- A program of the `Typer`. -/
abbrev Run (scanning : Bool) (Answer : Type) :=
  Prog ReachOut DeadPositions scanning Answer

def exprTruthiness {scanning : Bool} (pred : Nat) : Run scanning (Option Bool) :=
  .truthy pred .ret

/-- The first that answers `true` ends the walk. -/
def anyOf {scanning : Bool} (run : Nat → Run scanning Bool) : List Nat → Run scanning Bool
  | [] => pure false
  | id :: ids => do
      if ← run id then pure true else anyOf run ids

/-- The arm of an `if` that a predicate leaves live. -/
def liveArm (truthy isUnless : Bool) (thenBody elseBody : List Nat) : List Nat :=
  if truthy != isUnless then thenBody else elseBody

section Typer

variable (ast : LoweredAst)

def literalScalar (id : Nat) : Option Types.Scalar :=
  match ast.get id with
  | .literal scalar => some scalar
  | _ => none

/-- `name@start`, the key of a read on the `seen` stack. -/
def seenKey (name : Text) (span : Span) : Text :=
  name ++ '@' :: Nat.toDigits 10 span.1

/-- `local_reach` of a read, unless the stack holds its key or four keys. -/
def reachRead {Answer : Type} (name : Text) (span : Span) (revisited exhausted : Answer)
    (answer : ReachOut → Answer) : Run false Answer :=
  .visit (seenKey name span) 4 (.ret revisited) (.ret exhausted)
    (.reach ⟨name, span, false⟩ fun out => .pop (.ret (answer out)))

def exprScalar (id : Nat) : Run false (Option Types.Scalar) :=
  match literalScalar ast id with
  | some scalar => pure (some scalar)
  | none =>
      match ast.get id with
      | .localVariableRead name =>
          reachRead name (ast.span id) none none fun (reach, pin) =>
            if reach.precise && !reach.untyped then pin else none
      | _ => pure none

/-- `chain_reach`: only a read has a root. -/
def chainReach (id : Nat) : Run false Reach :=
  match ast.get id with
  | .localVariableRead name => reachRead name (ast.span id) Reach.none Reach.unknown Prod.fst
  | _ => pure Reach.unpinned

/-- `body_value_reach`, given the reach of an expression. -/
def bodyValueReach (reach : Nat → Run false Reach) (body : List Nat) : Run false Reach :=
  match body.getLast? with
  | some last => reach last
  | none => pure Reach.literal

def exprReach : Nat → Nat → Run false Reach
  | 0, _ => pure Reach.unknown
  | fuel + 1, id =>
      match ast.get id with
      | .ifNode predicate thenBody elseBody isUnless => do
          match ← exprTruthiness predicate with
          | some truthy =>
              bodyValueReach (exprReach fuel) (liveArm truthy isUnless thenBody elseBody)
          | none => do
              let reach ← bodyValueReach (exprReach fuel) thenBody
              pure (reach.join (← bodyValueReach (exprReach fuel) elseBody))
      | .logical left right _ => do
          let reach ← exprReach fuel left
          pure (reach.join (← exprReach fuel right))
      | .beginRescue body => bodyValueReach (exprReach fuel) body
      | .literal _ => pure Reach.literal
      | _ => do
          if (← exprScalar ast id).isSome then pure Reach.literal else chainReach ast id

def stmtExits : Nat → Nat → Run false Bool
  | 0, _ => pure false
  | fuel + 1, id =>
      let armExits (body : List Nat) : Run false Bool :=
        match body.getLast? with
        | some last => stmtExits fuel last
        | none => pure false
      match ast.get id with
      | .ifNode predicate thenBody elseBody isUnless => do
          match ← exprTruthiness predicate with
          | some truthy => armExits (liveArm truthy isUnless thenBody elseBody)
          | none => do
              if ← armExits thenBody then armExits elseBody else pure false
      | .beginRescue body => armExits body
      | .localVariableWrite _ value => stmtExits fuel value
      | _ => pure false

def armExits (body : List Nat) : Run false Bool :=
  match body.getLast? with
  | some last => stmtExits ast ast.fuel last
  | none => pure false

def definitelyAssigns (target : Text) (dead : DeadPositions) : Nat → Nat → Run false Bool
  | 0, _ => pure false
  | fuel + 1, id =>
      let armAssigns (body : List Nat) : Run false Bool := do
        if ← anyOf (definitelyAssigns target dead fuel) body then pure true else armExits ast body
      if ast.inBlockedCarrier (ast.span id) || dead.covers (ast.span id) then pure false
      else
        match ast.get id with
        | .localVariableWrite name _ => pure (name == target)
        | .ifNode predicate thenBody elseBody isUnless => do
            if ← definitelyAssigns target dead fuel predicate then pure true
            else
              match ← exprTruthiness predicate with
              | some truthy => armAssigns (liveArm truthy isUnless thenBody elseBody)
              | none => do
                  if ← armAssigns thenBody then armAssigns elseBody else pure false
        | .beginRescue body => anyOf (definitelyAssigns target dead fuel) body
        | _ => pure false

def statementSections (id : Nat) : List (List Nat) :=
  match ast.get id with
  | .ifNode _ thenBody elseBody _ => [thenBody, elseBody]
  | .beginRescue body => [body, []]
  | _ => []

def holds (use : Span) (body : List Nat) : Bool :=
  body.any fun id => contains (ast.span id) use

/-- The widest node inside the statement with a section that holds the read, the first of equal
ones. -/
def nestedSectionOwner (stmt : Nat) (use : Span) : Option Nat :=
  let owners := (List.range ast.nodes.length).filter fun id =>
    id != stmt && contains (ast.span stmt) (ast.span id) && contains (ast.span id) use &&
      !ast.inBlockedCarrier (ast.span id) && (statementSections ast id).any (holds ast use)
  let width (id : Nat) : Nat := (ast.span id).2 - (ast.span id).1
  owners.foldl (fun best id =>
    match best with
    | some other => if width other < width id then some id else best
    | none => some id) none

/-- The section that the walk to the read enters after a statement. -/
def nextSection (use : Span) (stmt : Nat) : Option (List Nat) :=
  ((statementSections ast stmt).find? (holds ast use)).or
    ((nestedSectionOwner ast stmt use).bind fun owner =>
      (statementSections ast owner).find? (holds ast use))

def latestDefiniteAssignment (target : Text) (dead : DeadPositions) (use : Span) :
    Nat → List Nat → Option Span → Run false (Option Span)
  | 0, _, kill => pure kill
  | rounds + 1, body, kill =>
      match body.findIdx? fun id => contains (ast.span id) use with
      | none => pure kill
      | some pos => do
          let kill ← (body.take pos).foldlM (fun kill id => do
            if ← definitelyAssigns ast target dead ast.fuel id then pure (some (ast.span id))
            else pure kill) kill
          match body[pos]?.bind (nextSection ast use) with
          | some section_ => latestDefiniteAssignment target dead use rounds section_ kill
          | none => pure kill

/-- A write of a local: its span and its value. -/
structure Write where
  span : Span
  value : Nat

/-- The writes of a local in the region, in arena order. -/
def events (region : Span) (root : Text) : List Write :=
  ast.nodes.filterMap fun (node, span) =>
    match node with
    | .localVariableWrite name value =>
        if name = root && contains region span && !ast.inBlockedCarrier span then
          some ⟨span, value⟩
        else none
    | _ => none

def pinJoin : Option (Option Types.Scalar) → Option Types.Scalar → Option (Option Types.Scalar)
  | none, value => some value
  | some (some a), some b => if a = b then some (some a) else some none
  | some _, _ => some none

/-- `MAX_REACHING_WRITES`. -/
def maxReachingWrites : Nat :=
  256

/-- The join over the writes that reach the read. -/
def joinWrites (use : Span) (kill : Option Span) :
    List Write → Reach → Option (Option Types.Scalar) → Run false ReachOut
  | [], reach, pin => pure (reach, pin.join)
  | write :: writes, reach, pin =>
      if kill.any (fun k => decide (write.span.1 < k.1)) || decide (use.1 < write.span.2) then
        joinWrites use kill writes reach pin
      else do
        let pin := pinJoin pin (← exprScalar ast write.value)
        let reach := reach.join (← exprReach ast ast.fuel write.value)
        joinWrites use kill writes reach pin

/-- `local_reach_uncached`: outside of every scope the file is the region. -/
def localReachUncached (query : Query) : Run false ReachOut :=
  match ast.get ast.root with
  | .program body => .dead fun dead => do
      let writes := (events ast (ast.span ast.root) query.root).filter fun write =>
        dead.writeReaches write.span query.useSpan &&
          !contains (ast.span write.value) query.useSpan
      if maxReachingWrites < writes.length then pure (Reach.unknown, none)
      else do
        let kill ← latestDefiniteAssignment ast query.root dead query.useSpan 64 body none
        match kill, writes with
        | some _, _ => joinWrites ast query.useSpan kill writes Reach.none none
        | none, [] =>
            joinWrites ast query.useSpan kill writes Reach.untypedOnly (pinJoin none none)
        | none, _ =>
            joinWrites ast query.useSpan kill writes Reach.literal (pinJoin none (some .nil))
  | _ => pure (Reach.unknown, none)

def exprTruthinessFold (pred : Nat) : Run false (Option Bool) :=
  match ast.get pred with
  | .localVariableWrite _ value => exprTruthiness value
  | .logical left right isAnd => do
      let l ← exprTruthiness left
      let r ← exprTruthiness right
      pure (match isAnd, l, r with
        | true, some false, _ => some false
        | true, _, some false => some false
        | true, some true, r => r
        | true, none, _ => none
        | false, some true, _ => some true
        | false, _, some true => some true
        | false, some false, r => r
        | false, none, _ => none)
  | _ => do
      let scalar ← exprScalar ast pred
      pure (scalar.map fun s => s != .nil && s != .bool false)

def bodyHull (body : List Nat) : Option Span :=
  match (body.map fun id => (ast.span id).1).min?, (body.map fun id => (ast.span id).2).max? with
  | some lo, some hi => some (lo, hi)
  | _, _ => none

/-- The walk of `dead_positions`.  The recorded arms are published before each predicate, if they
changed. -/
def scanNodes : List (Node × Span) → DeadPositions → Bool → Run true DeadPositions
  | [], dead, _ => pure dead
  | (.ifNode predicate thenBody elseBody isUnless, _) :: nodes, dead, dirty =>
      let folding : Run true DeadPositions := do
        match ← exprTruthiness predicate with
        | none => scanNodes nodes dead false
        | some truthy =>
            match bodyHull ast (liveArm truthy isUnless elseBody thenBody) with
            | some hull => scanNodes nodes { dead with folded := dead.folded ++ [hull] } true
            | none => scanNodes nodes dead false
      if dirty then .publish rfl dead folding else folding
  | _ :: nodes, dead, dirty => scanNodes nodes dead dirty

end Typer

/-- The programs of the `Typer` on the trees that `lowered` gives. -/
def code (lowered : Ast → LoweredAst) : Code ReachOut DeadPositions where
  body ast query := localReachUncached (lowered ast) query
  fold ast pred := exprTruthinessFold (lowered ast) pred
  scan ast := scanNodes (lowered ast) (lowered ast).nodes ⟨[], (lowered ast).discarded⟩ false
  emptyDead := ⟨[], []⟩

end Rigor.Infer.Locals
