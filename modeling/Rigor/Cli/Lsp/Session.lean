import Mathlib.Logic.Function.Basic
import Rigor.Cli.Lsp.CrossFileCache
import Rigor.Cli.Lsp.Overlay
import Rigor.Library.Runs

/-!
# The session

The loop of the language server.  It owns the buffers, the debounced publishes, the
set of documents with a worker in flight, the project context and the cross-file
cache, and it is the only publisher.  A worker computes off the loop and delivers one
result, which is published if its version, generation and epoch are still current.

Beside the session the state holds the workers whose result is not yet handled, the
publications so far (the latest first) and two monitors that no handler reads: the
generation of the last swap that re-analysed the open buffers, and the file count of
the last full build.  The counters of the source are 64 bits wide.
-/

namespace Rigor.Cli.Lsp

open Rigor.Library.Runs

universe u

/-! ## The overlay guard -/

/-- `OVERLAY_GUARD_STRIKES`. -/
def overlayGuardStrikes : Nat :=
  2

structure OverlayGuard where
  enabled : Bool
  «over» : Nat

inductive GuardVerdict where
  | unchanged
  | disabled
  | reEnabled
  deriving DecidableEq

namespace OverlayGuard

def new : OverlayGuard :=
  ⟨true, 0⟩

/-- Feeds one rebuild timing to the guard. -/
def record (guard : OverlayGuard) (sample budget : Nat) : GuardVerdict × OverlayGuard :=
  if budget < sample then
    if guard.enabled && overlayGuardStrikes ≤ guard.over + 1 then (.disabled, ⟨false, 0⟩)
    else (.unchanged, { guard with «over» := guard.over + 1 })
  else if !guard.enabled then (.reEnabled, ⟨true, 0⟩)
  else (.unchanged, { guard with «over» := 0 })

/-- The guard reports `disabled` exactly when it goes off. -/
theorem record_enabled (guard : OverlayGuard) (sample budget : Nat) (on : guard.enabled = true) :
    (guard.record sample budget).2.enabled = true ↔
      (guard.record sample budget).1 ≠ .disabled := by
  rw [record, on]
  split
  · split <;> simp
  · simp

end OverlayGuard

/-! ## The state -/

/-- Times are numbers of a unit of the clock. -/
abbrev Instant :=
  Nat

structure ServerContext where
  debounce : Nat
  overlayBudget : Nat

structure BufferEntry (Content : Type u) where
  bytes : Content
  version : Int

/-- The project context, as far as the loop reads it. -/
structure ProjectContext (Pair : Type) where
  generation : Nat
  overlay : Option (List (HeldFile Pair))

structure OverlayBuild (Pair : Type) where
  files : List (HeldFile Pair)
  merge : Nat

namespace OverlayGuard

variable {Pair : Type}

/-- Feeds a full build to the guard.  An empty project is no sample. -/
def recordBuild (guard : OverlayGuard) (build : OverlayBuild Pair) (budget : Nat) : OverlayGuard :=
  if 0 < build.files.length then (guard.record build.merge budget).2 else guard

/-- The overlay that a full build leaves. -/
def overlay (guard : OverlayGuard) (build : OverlayBuild Pair) : Option (List (HeldFile Pair)) :=
  if guard.enabled && 0 < build.files.length then some build.files else none

theorem overlay_of_off {guard : OverlayGuard} (off : guard.enabled = false)
    (build : OverlayBuild Pair) : guard.overlay build = none := by
  simp [overlay, off]

/-- With the guard on only an empty build leaves no overlay. -/
theorem files_of_overlay {guard : OverlayGuard} (on : guard.enabled = true)
    {build : OverlayBuild Pair} (absent : guard.overlay build = none) : build.files.length = 0 := by
  rw [overlay, on] at absent
  by_contra files
  simp [Nat.pos_of_ne_zero files] at absent

end OverlayGuard

/-- A dispatched worker with its snapshot. -/
structure Worker (Uri Content : Type u) (Pair : Type) where
  uri : Uri
  text : Content
  version : Int
  project : ProjectContext Pair
  epoch : Nat

/-- What a worker computes: diagnostics and, with the overlay on, its rebuild time and the
project index. -/
structure Answer (Diagnostics Index : Type u) where
  diags : Diagnostics
  overlayBuild : Option Nat
  projectIndex : Option Index

/-- A publication: the empty one of a closed document, or the result of a worker. -/
inductive Publication (Uri Content Diagnostics Index : Type u) (Pair : Type) where
  | clear (uri : Uri)
  | result (worker : Worker Uri Content Pair) (answer : Answer Diagnostics Index)

structure Session (Uri Content Diagnostics Index : Type u) (Pair : Type) [DecidableEq Uri] where
  buffers : Uri → Option (BufferEntry Content)
  pending : Uri → Option Instant
  inFlight : Uri → Bool
  epochs : Uri → Nat
  project : ProjectContext Pair
  guard : OverlayGuard
  crossfile : CrossFileCache Uri Index
  workers : List (Worker Uri Content Pair)
  published : List (Publication Uri Content Diagnostics Index Pair)
  requested : Nat
  built : Nat

/-- What reaches the loop.  A batch of source events acts on the held files through what it
finds on the disk; a full build reads the disk too.  Hash tables list their keys in any
order, so an event that goes through one carries the order. -/
inductive Event (Uri Content Diagnostics Index : Type u) (Pair : Type) where
  | didOpen (uri : Uri) (text : Content) (version : Int)
  | didChange (uri : Uri) (text : Content) (version : Int) (now : Instant)
  | didClose (uri : Uri)
  | fireDue (now : Instant) (order : List Uri)
  | sources (batch : List (HeldFile Pair) → Reharvest Pair) (build : OverlayBuild Pair)
      (order : List Uri)
  | structural (build : OverlayBuild Pair) (order : List Uri)
  | query (uri : Uri)
  | computed (place : Nat) (answer : Answer Diagnostics Index)

namespace Session

variable {Uri Content Diagnostics Index : Type u} {Pair : Type} [DecidableEq Uri]

/-! ## The handlers -/

def spawnWorker (st : Session Uri Content Diagnostics Index Pair) (uri : Uri)
    (buffer : BufferEntry Content) : Session Uri Content Diagnostics Index Pair :=
  { st with
    inFlight := Function.update st.inFlight uri true
    pending := Function.update st.pending uri none
    workers := ⟨uri, buffer.bytes, buffer.version, st.project, st.epochs uri⟩ :: st.workers }

/-- One worker for a document at most; a closed document gets none. -/
def requestDispatch (st : Session Uri Content Diagnostics Index Pair) (uri : Uri) :
    Session Uri Content Diagnostics Index Pair :=
  if st.inFlight uri then st
  else
    match st.buffers uri with
    | some buffer => st.spawnWorker uri buffer
    | none => st

def bumpEpoch (st : Session Uri Content Diagnostics Index Pair) (uri : Uri) :
    Session Uri Content Diagnostics Index Pair :=
  { st with epochs := Function.update st.epochs uri (st.epochs uri + 1) }

/-- The dispatches of `reanalyze_open_buffers` and `fire_due`. -/
def dispatchAll (st : Session Uri Content Diagnostics Index Pair) (order : List Uri) :
    Session Uri Content Diagnostics Index Pair :=
  order.foldl requestDispatch st

def swapProject (st : Session Uri Content Diagnostics Index Pair)
    (overlay : Option (List (HeldFile Pair))) : Session Uri Content Diagnostics Index Pair :=
  { st with
    project := ⟨st.project.generation + 1, overlay⟩
    crossfile := st.crossfile.clear }

def applyFullOverlayBuild (ctx : ServerContext) (st : Session Uri Content Diagnostics Index Pair)
    (build : OverlayBuild Pair) : Session Uri Content Diagnostics Index Pair :=
  let guard := st.guard.recordBuild build ctx.overlayBudget
  swapProject { st with guard := guard, built := build.files.length } (guard.overlay build)

def reharvest (ctx : ServerContext) (st : Session Uri Content Diagnostics Index Pair)
    (batch : List (HeldFile Pair) → Reharvest Pair) (build : OverlayBuild Pair) :
    Session Uri Content Diagnostics Index Pair :=
  match st.project.overlay with
  | none => st.swapProject none
  | some files =>
      match batch files with
      | .rebuild => st.applyFullOverlayBuild ctx build
      | .held files => st.swapProject (some files)

/-- The swap of a watched or configuration change is followed by a dispatch of every open
buffer. -/
def reanalyzeOpenBuffers (st : Session Uri Content Diagnostics Index Pair) (order : List Uri) :
    Session Uri Content Diagnostics Index Pair :=
  dispatchAll { st with requested := st.project.generation } order

def crossfileFor (st : Session Uri Content Diagnostics Index Pair) (uri : Uri) :
    Option Index × Session Uri Content Diagnostics Index Pair :=
  ((st.crossfile.get uri st.project.generation).1,
    { st with crossfile := (st.crossfile.get uri st.project.generation).2 })

/-- The version, the generation and the epoch of a result are current. -/
def live (st : Session Uri Content Diagnostics Index Pair) (worker : Worker Uri Content Pair)
    (buffer : BufferEntry Content) : Bool :=
  buffer.version = worker.version && worker.project.generation = st.project.generation &&
    worker.epoch = st.epochs worker.uri

/-- Publishes a result and caches its project index. -/
def publishResult (st : Session Uri Content Diagnostics Index Pair)
    (worker : Worker Uri Content Pair) (answer : Answer Diagnostics Index) :
    Session Uri Content Diagnostics Index Pair :=
  { st with
    crossfile := match answer.projectIndex with
      | some index => st.crossfile.store worker.uri index worker.project.generation
      | none => st.crossfile
    published := .result worker answer :: st.published }

/-- Publishes a current result, dispatches the latest content after a stale one, and drops
the result of a closed document. -/
def settleResult (st : Session Uri Content Diagnostics Index Pair)
    (worker : Worker Uri Content Pair) (answer : Answer Diagnostics Index) :
    Session Uri Content Diagnostics Index Pair :=
  match st.buffers worker.uri with
  | none => st
  | some buffer =>
      if st.live worker buffer then st.publishResult worker answer
      else st.requestDispatch worker.uri

/-- Feeds the rebuild time of a result to the guard while it is on. -/
def sampleGuard (ctx : ServerContext) (st : Session Uri Content Diagnostics Index Pair)
    (overlayBuild : Option Nat) : Session Uri Content Diagnostics Index Pair :=
  match overlayBuild with
  | none => st
  | some sample =>
      if st.guard.enabled then
        let recorded := st.guard.record sample ctx.overlayBudget
        if recorded.1 = .disabled then swapProject { st with guard := recorded.2 } none
        else { st with guard := recorded.2 }
      else st

def handleResult (ctx : ServerContext) (st : Session Uri Content Diagnostics Index Pair)
    (worker : Worker Uri Content Pair) (answer : Answer Diagnostics Index) :
    Session Uri Content Diagnostics Index Pair :=
  let cleared := { st with inFlight := Function.update st.inFlight worker.uri false }
  (cleared.settleResult worker answer).sampleGuard ctx answer.overlayBuild

/-- An opened document has a new epoch and no pending publish. -/
def recordOpen (st : Session Uri Content Diagnostics Index Pair) (uri : Uri) (text : Content)
    (version : Int) : Session Uri Content Diagnostics Index Pair :=
  let opened := bumpEpoch
    { st with buffers := Function.update st.buffers uri (some ⟨text, version⟩) } uri
  { opened with pending := Function.update opened.pending uri none }

def didOpen (st : Session Uri Content Diagnostics Index Pair) (uri : Uri) (text : Content)
    (version : Int) : Session Uri Content Diagnostics Index Pair :=
  (st.recordOpen uri text version).requestDispatch uri

def didChange (ctx : ServerContext) (st : Session Uri Content Diagnostics Index Pair) (uri : Uri)
    (text : Content) (version : Int) (now : Instant) : Session Uri Content Diagnostics Index Pair :=
  { st with
    buffers := Function.update st.buffers uri (some ⟨text, version⟩)
    pending := Function.update st.pending uri (some (now + ctx.debounce)) }

def didClose (st : Session Uri Content Diagnostics Index Pair) (uri : Uri) :
    Session Uri Content Diagnostics Index Pair :=
  let closed := bumpEpoch { st with buffers := Function.update st.buffers uri none } uri
  { closed with
    pending := Function.update closed.pending uri none
    crossfile := closed.crossfile.evict uri
    published := .clear uri :: closed.published }

/-- The due deadlines are removed before the dispatches. -/
def fireDue (st : Session Uri Content Diagnostics Index Pair) (now : Instant) (order : List Uri) :
    Session Uri Content Diagnostics Index Pair :=
  dispatchAll
    { st with pending := fun uri => (st.pending uri).filter fun deadline => now < deadline } order

/-- One turn of the loop. -/
def step (ctx : ServerContext) :
    Event Uri Content Diagnostics Index Pair → Session Uri Content Diagnostics Index Pair →
      Session Uri Content Diagnostics Index Pair
  | .didOpen uri text version, st => st.didOpen uri text version
  | .didChange uri text version now, st => st.didChange ctx uri text version now
  | .didClose uri, st => st.didClose uri
  | .fireDue now order, st => st.fireDue now order
  | .sources batch build order, st => (st.reharvest ctx batch build).reanalyzeOpenBuffers order
  | .structural build order, st => (st.applyFullOverlayBuild ctx build).reanalyzeOpenBuffers order
  | .query uri, st => (st.crossfileFor uri).2
  | .computed place answer, st =>
      match st.workers[place]? with
      | none => st
      | some worker =>
          handleResult ctx { st with workers := st.workers.eraseIdx place } worker answer

/-! ## The system -/

/-- A worker has an index exactly when it has a rebuild time, and only with an overlay. -/
def Delivers (worker : Worker Uri Content Pair) (answer : Answer Diagnostics Index) : Prop :=
  (answer.overlayBuild.isSome = answer.projectIndex.isSome) ∧
    (answer.projectIndex.isSome = true → worker.project.overlay.isSome = true)

/-- When an event can happen: the versions of an open document increase, the due and the
open documents are listed, and a result comes from a worker in flight. -/
def Enabled : Event Uri Content Diagnostics Index Pair →
    Session Uri Content Diagnostics Index Pair → Prop
  | .didOpen _ _ _, _ => True
  | .didChange uri _ version _, st => ∀ buffer, st.buffers uri = some buffer → buffer.version < version
  | .didClose _, _ => True
  | .fireDue now order, st =>
      ∀ uri, uri ∈ order ↔ ∃ deadline, st.pending uri = some deadline ∧ deadline ≤ now
  | .sources _ _ order, st => ∀ uri, uri ∈ order ↔ (st.buffers uri).isSome = true
  | .structural _ order, st => ∀ uri, uri ∈ order ↔ (st.buffers uri).isSome = true
  | .query _, _ => True
  | .computed place answer, st => ∃ worker, st.workers[place]? = some worker ∧ Delivers worker answer

/-- The session at startup: the first build is the guard's first sample. -/
def start (budget : Nat) (build : OverlayBuild Pair) :
    Session Uri Content Diagnostics Index Pair where
  buffers _ := none
  pending _ := none
  inFlight _ := false
  epochs _ := 0
  project := ⟨0, (OverlayGuard.new.recordBuild build budget).overlay build⟩
  guard := OverlayGuard.new.recordBuild build budget
  crossfile := .new
  workers := []
  published := []
  requested := 0
  built := build.files.length

def system (ctx : ServerContext) :
    System (Session Uri Content Diagnostics Index Pair)
      (Event Uri Content Diagnostics Index Pair) where
  Initial st := ∃ build, st = start ctx.overlayBudget build
  Enabled := Enabled
  step := step ctx

end Session

end Rigor.Cli.Lsp
