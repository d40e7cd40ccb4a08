import Mathlib.Logic.Function.Basic
import Rigor.Cli.Sidecar.Key
import Rigor.Library.Runs

/-!
# Folds over one channel

`SidecarFolder` shares one worker between the threads of an analysis.  A thread that asks for a fold holds
the lock until it has an answer: it looks the call up in the memo, or writes a line and waits for a line.
The worker may end at any moment, also in the middle of a reply.

Beside the memo and the two pipes the state holds what each thread was answered so far, and the calls whose
lines were written, which no step reads.
-/

namespace Rigor.Cli.Sidecar

open Rigor.Library.Runs Rigor.Types

universe u

/-! ## The calls -/

/-- `scalar_class`. -/
def scalarClass : Scalar → Text
  | .int _ => "Integer".toList
  | .bigInt _ => "Integer".toList
  | .float _ => "Float".toList
  | .str _ => "String".toList
  | .sym _ => "Symbol".toList
  | .bool true => "TrueClass".toList
  | .bool false => "FalseClass".toList
  | .nil => "NilClass".toList

/-- The calls that may go to the worker. -/
def foldableTable : List (String × List String) :=
  [("Integer", ["to_s", "gcd"]), ("Float", ["round"]),
    ("String", ["%", "center", "ljust", "rjust", "tr", "sub", "strip"])]

/-- `sidecar_foldable`. -/
def sidecarFoldable (receiverClass method : Text) : Bool :=
  foldableTable.any fun row => row.1.toList = receiverClass && row.2.any fun name => name.toList = method

/-- A call that the dispatcher may send. -/
abbrev FoldableCall :=
  {call : Call // sidecarFoldable (scalarClass call.recv) call.method = true}

/-- The threads: the next fold of a thread depends on the answers that it has. -/
structure Setup (ι : Type u) where
  P : Platform
  tables : DebugTables
  next : ι → List (Call × Option Scalar) → Option Call

/-! ## The state -/

structure World (ι : Type u) where
  /-- The worker runs. -/
  alive : Bool
  toWorker : Text
  toClient : Text
  dead : Bool
  memo : Text → Option (Option Scalar)
  /-- The thread that holds the lock and waits for a line, and its call. -/
  holder : Option (ι × Call)
  history : ι → List (Call × Option Scalar)
  sent : List Call

inductive Event (ι : Type u) where
  | enter (thread : ι)
  | serve
  | die (written : Nat)
  | read

section Steps

variable {ι : Type u} [DecidableEq ι] (S : Setup ι)

/-- `fold` of the folder returns, and the lock is free. -/
def World.answered (w : World ι) (thread : ι) (call : Call) (answer : Option Scalar) : World ι :=
  { w with
    history := Function.update w.history thread (w.history thread ++ [(call, answer)])
    holder := none }

/-- The answer goes into the memo. -/
def World.memoised (w : World ι) (thread : ι) (call : Call) (answer : Option Scalar) : World ι :=
  { w with memo := Function.update w.memo (key S.tables call) (some answer) }.answered thread call answer

/-- A thread takes the lock and comes to an answer, or to the wait for a line. -/
def World.enter (w : World ι) (thread : ι) (call : Call) : World ι :=
  match w.memo (key S.tables call) with
  | some cached => w.answered thread call cached
  | none =>
      if w.dead then w.memoised S thread call none
      else if ¬w.alive then { w with dead := true }.memoised S thread call none
      else
        { w with
          toWorker := w.toWorker ++ requestLine S.P call
          holder := some (thread, call)
          sent := w.sent ++ [call] }

theorem World.enter_known {S : Setup ι} {w : World ι} {call : Call} {cached : Option Scalar}
    (known : w.memo (key S.tables call) = some cached) (thread : ι) :
    w.enter S thread call = w.answered thread call cached := by
  unfold World.enter
  rw [known]

/-- A new call is written for while the worker runs. -/
theorem World.enter_asks {S : Setup ι} {w : World ι} {call : Call}
    (unknown : w.memo (key S.tables call) = none) (running : w.dead = false) (alive : w.alive = true)
    (thread : ι) :
    w.enter S thread call =
      { w with
        toWorker := w.toWorker ++ requestLine S.P call
        holder := some (thread, call)
        sent := w.sent ++ [call] } := by
  unfold World.enter
  rw [unknown]
  simp [running, alive]

/-- The line at the front of a pipe that has a whole one. -/
def frontLine (pipe : Text) : Option (Text × Text) :=
  (Text.splitOnce '\n' pipe).map fun split => (split.1 ++ ['\n'], split.2)

/-- What the worker is about to write. -/
def World.writing (w : World ι) : Text :=
  match frontLine w.toWorker with
  | some (line, _) =>
      match serveLine S.P line with
      | .reply json => S.P.rubyGenerate json ++ ['\n']
      | _ => []
  | none => []

/-- The worker takes a line. -/
def World.serve (w : World ι) : World ι :=
  match frontLine w.toWorker with
  | some (line, rest) =>
      match serveLine S.P line with
      | .reply json => { w with toWorker := rest, toClient := w.toClient ++ (S.P.rubyGenerate json ++ ['\n']) }
      | .silent => { w with toWorker := rest }
      | .exited => { w with alive := false, toWorker := [] }
  | none => w

/-- The worker ends after some characters of its reply. -/
def World.die (w : World ι) (written : Nat) : World ι :=
  { w with alive := false, toWorker := [], toClient := w.toClient ++ (w.writing S).take written }

/-- `read_line`: a line, or what stands in the pipe at its end. -/
def World.line (w : World ι) : Text × Text :=
  (frontLine w.toClient).getD (w.toClient, [])

/-- `request` goes on with the line, and `fold` with the reply. -/
def World.read (w : World ι) : World ι :=
  match w.holder with
  | none => w
  | some (thread, call) =>
      let w' := { w with toClient := w.line.2 }
      if w.line.1 = [] then { w' with dead := true }.memoised S thread call none
      else
        match S.P.serdeParse (Text.trim w.line.1) with
        | some reply => w'.memoised S thread call (resultOf S.P reply)
        | none => { w' with dead := true }.memoised S thread call none

def World.apply (w : World ι) : Event ι → World ι
  | .enter thread =>
      match S.next thread (w.history thread) with
      | some call => w.enter S thread call
      | none => w
  | .serve => w.serve S
  | .die written => w.die S written
  | .read => w.read S

/-- The lock is free where a thread enters; a read waits for a line or for the end of the worker. -/
def Event.Enabled (w : World ι) : Event ι → Prop
  | .enter thread => w.holder = none ∧ ∃ call, S.next thread (w.history thread) = some call
  | .serve => w.alive = true ∧ '\n' ∈ w.toWorker
  | .die _ => w.alive = true
  | .read => w.holder.isSome = true ∧ ('\n' ∈ w.toClient ∨ w.alive = false)

def initialWorld : World ι where
  alive := true
  toWorker := []
  toClient := []
  dead := false
  memo := fun _ => none
  holder := none
  history := fun _ => []
  sent := []

/-- The threads, the folder and the worker, from the handshake on. -/
def channel : System (World ι) (Event ι) where
  Initial w := w = initialWorld
  Enabled event w := event.Enabled S w
  step event w := w.apply S event

end Steps

end Rigor.Cli.Sidecar
