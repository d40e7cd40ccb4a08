import Rigor.Cli.Sidecar.Answers
import Rigor.Library.Stages

/-!
# The folder of an analysis

A fold is one exchange over the channel: the thread that holds the lock writes, the worker serves, the thread
reads.  A worker that replies to every call with a line that can be read is a steady folder: the answer to a call
does not depend on the calls before it.
-/

namespace Rigor.Cli.Sidecar

open Rigor.Library.Runs Rigor.Library.Stages Rigor.Types

variable {P : Platform} {tables : DebugTables} {w : World FoldableCall}

/-- The threads may ask for any call of the table, at any time. -/
def folderSetup (P : Platform) (tables : DebugTables) : Setup FoldableCall where
  P := P
  tables := tables
  next call _ := some call.val

/-- `fold`, from the lock to the answer, with a worker that is not disturbed. -/
def World.fold (P : Platform) (tables : DebugTables) (w : World FoldableCall) (call : FoldableCall) :
    World FoldableCall :=
  let asked := w.enter (folderSetup P tables) call call.val
  if asked.holder.isSome then (asked.serve (folderSetup P tables)).read (folderSetup P tables) else asked

/-- `SidecarFolder`, from the handshake on. -/
def sidecarFolder (P : Platform) (tables : DebugTables) :
    Resource FoldableCall (Option Scalar) (World FoldableCall) where
  start := initialWorld
  reply call w := (((w.fold P tables call).memo (key tables call.val)).getD none, w.fold P tables call)

/-- The worker replies to every call of the table, and every reply can be read. -/
structure Platform.Healthy (P : Platform) : Prop where
  replies : ∀ call : FoldableCall, replied P call.val ≠ none
  readable : ∀ call : FoldableCall, ¬Unreadable P call.val

/-- Between two folds. -/
structure Ready (P : Platform) (tables : DebugTables) (w : World FoldableCall) : Prop where
  reachable : (channel (folderSetup P tables)).Reachable w
  free : w.holder = none
  alive : w.alive = true
  foldable : ∀ call ∈ w.sent, ∃ asked : FoldableCall, asked.val = call

theorem ready_initial : Ready P tables initialWorld :=
  ⟨System.Reachable.of_initial rfl, rfl, rfl, fun _ mem => absurd mem List.not_mem_nil⟩

theorem Ready.not_lost (ready : Ready P tables w) (healthy : P.Healthy) : ¬Lost (folderSetup P tables) w := by
  rintro (ended | ⟨call, sent, unread⟩)
  · rw [ready.alive] at ended
    cases ended
  · rcases ready.foldable call sent with ⟨asked, rfl⟩
    exact healthy.readable asked unread

/-- A read is an answer to the call that waits. -/
theorem exists_read_eq (S : Setup FoldableCall) {thread : FoldableCall} {call : Call}
    (holds : w.holder = some (thread, call)) :
    ∃ w' : World FoldableCall, w'.alive = w.alive ∧ w'.sent = w.sent ∧
      ∃ answer, w.read S = w'.memoised S thread call answer := by
  unfold World.read
  rw [holds]
  dsimp only
  split
  · exact ⟨{ w with toClient := w.line.2, dead := true }, rfl, rfl, none, rfl⟩
  · split
    · exact ⟨{ w with toClient := w.line.2 }, rfl, rfl, _, rfl⟩
    · exact ⟨{ w with toClient := w.line.2, dead := true }, rfl, rfl, none, rfl⟩

/-- The worker serves the line of a thread, and the thread reads the reply. -/
theorem exists_exchange_eq (sound : (folderSetup P tables).Sound) (healthy : P.Healthy) {call : FoldableCall}
    (reachable : (channel (folderSetup P tables)).Reachable w) (holds : w.holder = some (call, call.val))
    (alive : w.alive = true) (toWorker : w.toWorker = requestLine P call.val) :
    (channel (folderSetup P tables)).Reachable
        ((w.serve (folderSetup P tables)).read (folderSetup P tables)) ∧
      ∃ w' : World FoldableCall, w'.alive = true ∧ w'.sent = w.sent ∧
        ∃ answer, (w.serve (folderSetup P tables)).read (folderSetup P tables) =
          w'.memoised (folderSetup P tables) call call.val answer := by
  have isAsked : Asked (folderSetup P tables) call.val := ⟨call, [], rfl⟩
  have serves : (channel (folderSetup P tables)).Enabled .serve w :=
    ⟨alive, by rw [toWorker, requestLine]; simp⟩
  have after : (channel (folderSetup P tables)).Reachable (w.serve (folderSetup P tables)) :=
    reachable.step serves
  have served : (w.serve (folderSetup P tables)).holder = some (call, call.val) ∧
      (w.serve (folderSetup P tables)).alive = true ∧ (w.serve (folderSetup P tables)).sent = w.sent ∧
        '\n' ∈ (w.serve (folderSetup P tables)).toClient := by
    rcases Option.ne_none_iff_exists'.mp (healthy.replies call) with ⟨result, replies⟩
    rw [serve_of_replied sound isAsked toWorker replies]
    exact ⟨holds, alive, rfl, by simp⟩
  have reads : (channel (folderSetup P tables)).Enabled .read (w.serve (folderSetup P tables)) :=
    ⟨by rw [served.1]; rfl, Or.inl served.2.2.2⟩
  rcases exists_read_eq (folderSetup P tables) served.1 with ⟨w', stays, sent, answer, same⟩
  exact ⟨after.step reads, w', stays.trans served.2.1, sent.trans served.2.2.1, answer, same⟩

/-- A fold comes back with an answer in the memo. -/
theorem Ready.fold (ready : Ready P tables w) (sound : (folderSetup P tables).Sound) (healthy : P.Healthy)
    (call : FoldableCall) : Ready P tables (w.fold P tables call) ∧
      ∃ answer, (w.fold P tables call).memo (key tables call.val) = some answer := by
  have good := good_of_reachable sound ready.reachable
  have pipes := good.idle ready.free
  have enters : (channel (folderSetup P tables)).Enabled (.enter call) w := ⟨ready.free, call.val, rfl⟩
  have entered : (channel (folderSetup P tables)).Reachable (w.enter (folderSetup P tables) call call.val) :=
    ready.reachable.step enters
  unfold World.fold
  cases found : w.memo (key tables call.val) with
  | some cached =>
      rw [World.enter_known (S := folderSetup P tables) found] at entered ⊢
      exact ⟨⟨entered, rfl, ready.alive, ready.foldable⟩, cached, found⟩
  | none =>
      have running : w.dead = false := by
        by_contra dead
        rw [Bool.not_eq_false] at dead
        exact ready.not_lost healthy (good.core.gone dead)
      rw [World.enter_asks (S := folderSetup P tables) found running ready.alive, pipes.1,
        List.nil_append] at entered ⊢
      rcases exists_exchange_eq sound healthy entered rfl ready.alive rfl with
        ⟨after, w', alive, sent, answer, same⟩
      change Ready P tables (World.read _ (World.serve _ _)) ∧
        ∃ answer, (World.read _ (World.serve _ _)).memo _ = some answer
      rw [same] at after ⊢
      refine ⟨⟨after, rfl, alive, fun call' mem => ?_⟩, answer, Function.update_self _ _ _⟩
      change call' ∈ w'.sent at mem
      rw [sent] at mem
      rcases List.mem_append.mp mem with before | last
      · exact ready.foldable call' before
      · exact ⟨call, (List.mem_singleton.mp last).symm⟩

/-- Beside a worker that replies to every call with a line that can be read, the folder answers each call with
what is read of the reply. -/
theorem steady_sidecarFolder (sound : (folderSetup P tables).Sound) (healthy : P.Healthy) :
    (sidecarFolder P tables).Steady fun call => received P call.val := by
  intro asked call
  have ready : Ready P tables ((sidecarFolder P tables).after asked) := by
    induction asked using List.reverseRecOn with
    | nil => exact ready_initial
    | append_singleton asked last ih =>
        rw [Resource.after_concat]
        exact (ih.fold sound healthy last).1
  rcases ready.fold sound healthy call with ⟨ready', answer, known⟩
  change (World.memo _ _).getD none = _
  rw [known, Option.getD_some]
  have good := good_of_reachable sound ready'.reachable
  rcases good.core.memo _ _ known with ⟨call', asked', same, right⟩
  have isAsked : Asked (folderSetup P tables) call.val := ⟨call, [], rfl⟩
  have own := right.resolve_right fun late => ready'.not_lost healthy late.2
  rw [own]
  exact received_eq_of_key_eq sound asked' isAsked same

end Rigor.Cli.Sidecar
