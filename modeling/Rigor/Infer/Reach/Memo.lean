import Mathlib.Data.List.Sort
import Rigor.Infer.Reach.Program

/-!
# The memo of reach computations

`local_reach` answers a repeated call from the first one.  An entry records what its computation
depended on: the keys it tested on the stack, the folds it saw re-entered and the dead set.
-/

namespace Rigor.Infer.Reach

/-- `u32::MAX`. -/
def u32Max : Nat :=
  4294967295

/-- `MAX_ENTRIES_PER_KEY`. -/
def maxEntriesPerKey : Nat :=
  128

structure MemoEntry (Out : Type) where
  root : Text
  /-- Sorted ids of the tested keys. -/
  tested : List Nat
  testedBits : BitVec 64
  /-- Those among them that the stack held at the start. -/
  present : List Nat
  folding : List TruthyKey
  out : Out

/-- The bit an id sets in `tested_bits`. -/
def idBit (id : Nat) : BitVec 64 :=
  1#64 <<< (id % 64)

namespace MemoEntry

variable {Out : Type}

/-- The loop of `matches`, with the number of tested keys held so far. -/
def matchesFrom (entry : MemoEntry Out) : List Nat → Nat → Bool
  | [], held => held == entry.present.length
  | id :: stack, held =>
      if entry.testedBits &&& idBit id ≠ 0#64 ∧ id ∈ entry.tested then
        if id ∈ entry.present then entry.matchesFrom stack (held + 1) else false
      else entry.matchesFrom stack held

/-- The stack answers every test of the computation as its starting stack did. -/
def matches_ (entry : MemoEntry Out) (stack : List Nat) : Bool :=
  entry.matchesFrom stack 0

end MemoEntry

/-- The use span, `skip_class_guards` and `seen.len()`. -/
abbrev EntryKey := (Nat × Nat) × Bool × Nat

structure ReachMemo (Out Dead : Type) where
  ast : Ast
  dead : Option (DeadSet Dead)
  /-- Most recently used first. -/
  entries : EntryKey → List (MemoEntry Out)
  /-- The interned keys. -/
  keys : List (Text × Nat)

/-- Same allocation, or both absent. -/
def sameDead {Dead : Type} (a b : Option (DeadSet Dead)) : Bool :=
  a.map DeadSet.id == b.map DeadSet.id

namespace ReachMemo

variable {Out Dead : Type}

def start : ReachMemo Out Dead where
  ast := ⟨0, 0⟩
  dead := none
  entries _ := []
  keys := []

def validFor (memo : ReachMemo Out Dead) (ast : Ast) (dead : Option (DeadSet Dead)) : Bool :=
  memo.ast == ast && sameDead memo.dead dead

def resetUnlessValid (memo : ReachMemo Out Dead) (ast : Ast) (dead : Option (DeadSet Dead)) :
    ReachMemo Out Dead :=
  if memo.validFor ast dead then memo
  else { memo with ast := ast, dead := dead, entries := fun _ => [] }

def stackIds (memo : ReachMemo Out Dead) (stack : List Text) : List Nat :=
  stack.filterMap fun key => memo.keys.lookup key

/-- The id of a key.  A new id is the number of keys as a `u32`. -/
def intern (memo : ReachMemo Out Dead) (key : Text) : ReachMemo Out Dead × Nat :=
  match memo.keys.lookup key with
  | some id => (memo, id)
  | none =>
      let id := memo.keys.length % (u32Max + 1)
      ({ memo with keys := (key, id) :: memo.keys }, id)

end ReachMemo

inductive MemoFrame where
  /-- A computation in progress on the stack at the address `seen`. -/
  | reach (seen stamp : Nat) (tested : List Nat) (folding : List TruthyKey)
  /-- A fold running to completion. -/
  | barrier
  deriving DecidableEq

def MemoFrame.isReach : MemoFrame → Bool
  | .reach .. => true
  | .barrier => false

structure MemoFrames where
  /-- Innermost first. -/
  frames : List MemoFrame
  /-- Per depth and id, the stamp of the frame that last recorded the id; zero if none did. -/
  marks : Nat → Nat → Nat
  nextStamp : Nat

namespace MemoFrames

def start : MemoFrames where
  frames := []
  marks _ _ := 0
  nextStamp := 0

def pushReach (memo : MemoFrames) (seen : Nat) : MemoFrames :=
  let memo := if memo.nextStamp = u32Max then { memo with marks := fun _ _ => 0, nextStamp := 0 }
    else memo
  { memo with
    nextStamp := memo.nextStamp + 1
    frames := .reach seen (memo.nextStamp + 1) [] [] :: memo.frames }

def pushBarrier (memo : MemoFrames) : MemoFrames :=
  { memo with frames := .barrier :: memo.frames }

def pop (memo : MemoFrames) : MemoFrames :=
  { memo with frames := memo.frames.tail }

/-- Records the ids a frame has not marked. -/
def markAll (stamp : Nat) : List Nat → (Nat → Nat) → List Nat → (Nat → Nat) × List Nat
  | [], marks, tested => (marks, tested)
  | id :: ids, marks, tested =>
      if marks id = stamp then markAll stamp ids marks tested
      else markAll stamp ids (Function.update marks id stamp) (tested ++ [id])

/-- Adds what is not there yet. -/
def addFolding (folding : List TruthyKey) (more : List TruthyKey) : List TruthyKey :=
  more.foldl (fun folding p => if p ∈ folding then folding else folding ++ [p]) folding

/-- Records dependencies in the innermost frame if it is a computation; the tested keys only if it
runs on the stack. -/
def record (memo : MemoFrames) (stack : Nat) (tested : List Nat) (folding : List TruthyKey) :
    MemoFrames :=
  match memo.frames with
  | .reach seen stamp t f :: outer =>
      let depth := memo.frames.length
      let marked := if seen = stack then markAll stamp tested (memo.marks (depth - 1)) t
        else (memo.marks (depth - 1), t)
      { memo with
        marks := Function.update memo.marks (depth - 1) marked.1
        frames := .reach seen stamp marked.2 (addFolding f folding) :: outer }
  | _ => memo

end MemoFrames

/-- A call of `local_reach` that returned: the state it was made in and its answer. -/
structure Event (Out Dead : Type) where
  ast : Ast
  query : Query
  seen : List Text
  world : World Dead
  answer : Out

structure Typer (Out Dead : Type) where
  world : World Dead
  memo : ReachMemo Out Dead
  frames : MemoFrames
  /-- The calls that returned, latest first.  Not in the source. -/
  events : List (Event Out Dead)
  /-- The stamps wrapped while a computation was in progress, or the ids wrapped.  Not in
  the source. -/
  wrapped : Bool

namespace Typer

variable {Out Dead : Type}

def start (emptyDead : Dead) : Typer Out Dead where
  world := World.start emptyDead
  memo := ReachMemo.start
  frames := MemoFrames.start
  events := []
  wrapped := false

/-- What `seen_contains` records of a test. -/
def noteTest (typer : Typer Out Dead) (stack : Nat) (key : Text) : Typer Out Dead :=
  match typer.frames.frames with
  | .reach seen _ _ _ :: _ =>
      if seen = stack then
        let interned := typer.memo.intern key
        { typer with
          memo := interned.1
          frames := typer.frames.record stack [interned.2] []
          wrapped := typer.wrapped ||
            (typer.memo.keys.lookup key).isNone && decide (u32Max < typer.memo.keys.length) }
      else typer
  | _ => typer

/-- `note_truthy_reentry`. -/
def noteReentry (typer : Typer Out Dead) (key : TruthyKey) : Typer Out Dead :=
  { typer with frames := typer.frames.record 0 [] [key] }

def pushReach (typer : Typer Out Dead) (stack : Nat) : Typer Out Dead :=
  { typer with
    frames := typer.frames.pushReach stack
    wrapped := typer.wrapped ||
      decide (typer.frames.nextStamp = u32Max) && typer.frames.frames.any MemoFrame.isReach }

/-- The lookup first makes the memo belong to the tree and the dead set. -/
def prepare (typer : Typer Out Dead) (ast : Ast) : Typer Out Dead :=
  let clear := typer.memo.ast ≠ ast ∧ typer.frames.frames = []
  let memo := if clear then { typer.memo with keys := [] } else typer.memo
  let frames := if clear then { typer.frames with marks := fun _ _ => 0 } else typer.frames
  { typer with memo := memo.resetUnlessValid ast (typer.world.currentDead ast), frames := frames }

end Typer

/-- The walk over the entries of a key: the first entry that fits and is live, and the others.  An
entry that fits and is not live is dropped. -/
def findEntry {Out : Type} (fits live : MemoEntry Out → Bool) :
    List (MemoEntry Out) → Option (MemoEntry Out) × List (MemoEntry Out)
  | [] => (none, [])
  | entry :: entries =>
      if fits entry then
        if live entry then (some entry, entries) else findEntry fits live entries
      else
        let (found, rest) := findEntry fits live entries
        (found, entry :: rest)

/-- Every fold the entry saw re-entered still answers `None`. -/
def MemoEntry.live {Out Dead : Type} (world : World Dead) (entry : MemoEntry Out) : Bool :=
  entry.folding.all fun p =>
    decide (p ∈ world.truthyInFlight) || decide (world.truthyMemo p = some none)

namespace Typer

variable {Out Dead : Type}

/-- The lookup of a prepared memo.  A found entry moves to the front. -/
def lookup (typer : Typer Out Dead) (query : Query) (seen : List Text) :
    Option (MemoEntry Out) × Typer Out Dead :=
  let key : EntryKey := (query.useSpan, query.skipClassGuards, seen.length)
  let stack := typer.memo.stackIds seen
  let (found, rest) := findEntry
    (fun entry => entry.root == query.root && entry.matches_ stack)
    (MemoEntry.live typer.world) (typer.memo.entries key)
  (found, { typer with memo := { typer.memo with
    entries := Function.update typer.memo.entries key (found.toList ++ rest) } })

def newEntry (memo : ReachMemo Out Dead) (query : Query) (seen : List Text) (tested : List Nat)
    (folding : List TruthyKey) (out : Out) : MemoEntry Out where
  root := query.root
  tested := tested.insertionSort (· ≤ ·)
  testedBits := tested.foldl (fun bits id => bits ||| idBit id) 0#64
  present := ((memo.stackIds seen).filter (· ∈ tested)).insertionSort (· ≤ ·)
  folding := folding
  out := out

/-- Stores an answer unless the dead set changed while it was computed. -/
def store (typer : Typer Out Dead) (ast : Ast) (dead : Option (DeadSet Dead)) (query : Query)
    (seen : List Text) (tested : List Nat) (folding : List TruthyKey) (out : Out) :
    Typer Out Dead :=
  if sameDead dead (typer.world.currentDead ast) && typer.memo.validFor ast dead then
    let key : EntryKey := (query.useSpan, query.skipClassGuards, seen.length)
    { typer with memo := { typer.memo with
      entries := Function.update typer.memo.entries key
        (newEntry typer.memo query seen tested folding out ::
          (typer.memo.entries key).take (maxEntriesPerKey - 1)) } }
  else typer

/-- The end of a computation: its frame goes, the frame around it takes its dependencies, and the
answer is stored. -/
def finishReach (typer : Typer Out Dead) (ast : Ast) (stack : Nat) (dead : Option (DeadSet Dead))
    (query : Query) (seen : List Text) (out : Out) : Typer Out Dead :=
  match typer.frames.frames with
  | .reach _ _ tested folding :: _ =>
      let popped := { typer with frames := typer.frames.pop.record stack tested folding }
      popped.store ast dead query seen tested folding out
  | _ => typer

def note (typer : Typer Out Dead) (event : Event Out Dead) : Typer Out Dead :=
  { typer with events := event :: typer.events }

end Typer

variable {Out Dead : Type}

/-- Runs a program with the memo of `local_reach`, on the stack at the address `stack`. -/
def execMemo (code : Code Out Dead) (ast : Ast) (stack : Nat) : Nat → {scanning : Bool} →
    {Answer : Type} → Prog Out Dead scanning Answer → List Text → List Text → Typer Out Dead →
    Option (Typer Out Dead × Answer)
  | 0, _, _, _, _, _, _ => none
  | fuel + 1, _, _, prog, base, own, typer =>
      match prog with
      | .ret answer => some (typer, answer)
      | .len next => execMemo code ast stack fuel (next (base ++ own).length) base own typer
      | .test key next =>
          execMemo code ast stack fuel (next (decide (key ∈ base ++ own))) base own
            (typer.noteTest stack key)
      | .visit key cap present full absent =>
          if key ∈ base ++ own then
            execMemo code ast stack fuel present base own (typer.noteTest stack key)
          else if cap ≤ (base ++ own).length then
            execMemo code ast stack fuel full base own (typer.noteTest stack key)
          else
            execMemo code ast stack fuel absent base (own ++ [key]) (typer.noteTest stack key)
      | .pop next => execMemo code ast stack fuel next base own.dropLast typer
      | .reach query next =>
          let seen := base ++ own
          let answered (typer' : Typer Out Dead) (out : Out) : Typer Out Dead :=
            typer'.note ⟨ast, query, seen, typer.world, out⟩
          match (typer.prepare ast).lookup query seen with
          | (some entry, found) =>
              execMemo code ast stack fuel (next entry.out) base own
                (answered { found with
                  frames := found.frames.record stack entry.tested entry.folding } entry.out)
          | (none, missed) =>
              (execMemo code ast stack fuel (code.body ast query) seen [] (missed.pushReach stack)).bind
                fun (done, out) =>
                  execMemo code ast stack fuel (next out) base own
                    (answered (done.finishReach ast stack (typer.world.currentDead ast) query seen
                      out) out)
      | .truthy pred next =>
          match typer.world.truthyMemo (ast.address, pred) with
          | some hit => execMemo code ast stack fuel (next hit) base own typer
          | none =>
              if (ast.address, pred) ∈ typer.world.truthyInFlight then
                execMemo code ast stack fuel (next none) base own
                  (typer.noteReentry (ast.address, pred))
              else
                (execMemo code ast stack fuel (code.fold ast pred) (base ++ own) []
                    { typer with
                      world := typer.world.startFold (ast.address, pred)
                      frames := typer.frames.pushBarrier }).bind
                  fun (typer, out) => execMemo code ast stack fuel (next out) base own
                    { typer with
                      world := typer.world.finishFold (ast.address, pred) out
                      frames := typer.frames.pop }
      | .dead next =>
          match typer.world.currentDead ast with
          | some set => execMemo code ast stack fuel (next set.contents) base own typer
          | none =>
              (execMemo code ast stack fuel (code.scan ast) (base ++ own) []
                  { typer with world := typer.world.startScan code.emptyDead }).bind
                fun (typer, contents) => execMemo code ast stack fuel (next contents) base own
                  { typer with world := typer.world.finishScan ast.address contents }
      | .publish _ contents next =>
          execMemo code ast stack fuel next base own
            { typer with world := typer.world.publish contents }

end Rigor.Infer.Reach
