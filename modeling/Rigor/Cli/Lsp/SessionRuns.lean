import Mathlib.Data.List.Nodup
import Mathlib.Data.List.Perm.Basic
import Rigor.Cli.Lsp.Session

/-!
# Runs of the session

What holds in every reachable session: which workers are in flight and what they
captured, that a published result is computed from what is current, that every open
document is answered or has an answer under way, and that the cross-file cache and the
overlay guard keep step with the project context.
-/

namespace Rigor.Cli.Lsp

open Rigor.Library.Runs

universe u

variable {Uri Content Diagnostics Index : Type u} {Pair : Type} [DecidableEq Uri]

namespace Publication

def uri : Publication Uri Content Diagnostics Index Pair → Uri
  | .clear uri => uri
  | .result worker _ => worker.uri

end Publication

/-! ## Workers in flight -/

/-- The workers of a session: one for a document at most, known to `in_flight`, and, while
the epoch lasts, with a snapshot that only a later version replaces. -/
structure Tracked (buffers : Uri → Option (BufferEntry Content)) (inFlight : Uri → Bool)
    (epochs : Uri → Nat) (workers : List (Worker Uri Content Pair)) : Prop where
  unique : (workers.map Worker.uri).Nodup
  flying : ∀ uri, inFlight uri = true ↔ ∃ worker ∈ workers, worker.uri = uri
  past : ∀ worker ∈ workers, worker.epoch ≤ epochs worker.uri
  snapshot : ∀ worker ∈ workers, worker.epoch = epochs worker.uri →
    ∃ buffer, buffers worker.uri = some buffer ∧ worker.version ≤ buffer.version ∧
      (worker.version = buffer.version → worker.text = buffer.bytes)

namespace Tracked

variable {buffers : Uri → Option (BufferEntry Content)} {inFlight : Uri → Bool}
  {epochs : Uri → Nat} {workers : List (Worker Uri Content Pair)} {uri : Uri}

theorem spawn (tracked : Tracked buffers inFlight epochs workers) {buffer : BufferEntry Content}
    (opened : buffers uri = some buffer) (idle : inFlight uri = false)
    (project : ProjectContext Pair) :
    Tracked buffers (Function.update inFlight uri true) epochs
      (⟨uri, buffer.bytes, buffer.version, project, epochs uri⟩ :: workers) where
  unique := by
    rw [List.map_cons, List.nodup_cons]
    refine ⟨?_, tracked.unique⟩
    intro mem
    obtain ⟨worker, flies, same⟩ := List.mem_map.mp mem
    have busy := (tracked.flying uri).mpr ⟨worker, flies, same⟩
    rw [idle] at busy
    contradiction
  flying other := by
    by_cases same : other = uri
    · subst same
      simp
    · rw [Function.update_of_ne same, tracked.flying]
      simp [Ne.symm same]
  past worker mem := by
    rcases List.mem_cons.mp mem with rfl | old
    · exact Nat.le_refl _
    · exact tracked.past worker old
  snapshot worker mem current := by
    rcases List.mem_cons.mp mem with rfl | old
    · exact ⟨buffer, opened, Int.le_refl _, fun _ => rfl⟩
    · exact tracked.snapshot worker old current

/-- A worker delivers its result. -/
theorem deliver (tracked : Tracked buffers inFlight epochs workers) {place : Nat}
    {worker : Worker Uri Content Pair} (found : workers[place]? = some worker) :
    Tracked buffers (Function.update inFlight worker.uri false) epochs (workers.eraseIdx place) := by
  obtain ⟨inside, here⟩ := List.getElem?_eq_some_iff.mp found
  have kept : (workers.eraseIdx place).Sublist workers := List.eraseIdx_sublist _ _
  have erased : workers.Perm (worker :: workers.eraseIdx place) := by
    rw [← here]
    exact (List.getElem_cons_eraseIdx_perm inside).symm
  have unique := (erased.map Worker.uri).nodup_iff.mp tracked.unique
  rw [List.map_cons, List.nodup_cons] at unique
  refine ⟨unique.2, fun other => ?_, fun other mem => tracked.past other (kept.subset mem),
    fun other mem => tracked.snapshot other (kept.subset mem)⟩
  by_cases same : other = worker.uri
  · subst same
    rw [Function.update_self]
    simp only [Bool.false_eq_true, false_iff]
    rintro ⟨twin, mem, same⟩
    exact unique.1 (List.mem_map.mpr ⟨twin, mem, same⟩)
  · rw [Function.update_of_ne same, tracked.flying]
    constructor
    · rintro ⟨flies, mem, rfl⟩
      rcases List.mem_cons.mp (erased.mem_iff.mp mem) with rfl | rest
      · exact absurd rfl same
      · exact ⟨flies, rest, rfl⟩
    · rintro ⟨flies, mem, rfl⟩
      exact ⟨flies, kept.subset mem, rfl⟩

/-- A new epoch leaves no current worker, whatever becomes of the buffer. -/
theorem bump (tracked : Tracked buffers inFlight epochs workers) (uri : Uri)
    (buffer : Option (BufferEntry Content)) :
    Tracked (Function.update buffers uri buffer) inFlight
      (Function.update epochs uri (epochs uri + 1)) workers where
  unique := tracked.unique
  flying := tracked.flying
  past worker mem := by
    have past := tracked.past worker mem
    by_cases same : worker.uri = uri
    · rw [same, Function.update_self, ← same]
      exact Nat.le_succ_of_le past
    · rw [Function.update_of_ne same]
      exact past
  snapshot worker mem current := by
    have past := tracked.past worker mem
    by_cases same : worker.uri = uri
    · rw [same, Function.update_self, ← same] at current
      omega
    · rw [Function.update_of_ne same] at current ⊢
      exact tracked.snapshot worker mem current

/-- A later version replaces what the workers have captured. -/
theorem change (tracked : Tracked buffers inFlight epochs workers) {text : Content}
    {version : Int} (later : ∀ buffer, buffers uri = some buffer → buffer.version < version) :
    Tracked (Function.update buffers uri (some ⟨text, version⟩)) inFlight epochs workers where
  unique := tracked.unique
  flying := tracked.flying
  past := tracked.past
  snapshot worker mem current := by
    obtain ⟨buffer, opened, older, -⟩ := tracked.snapshot worker mem current
    by_cases same : worker.uri = uri
    · rw [same] at opened
      have newer := later buffer opened
      rw [same, Function.update_self]
      refine ⟨_, rfl, ?_, ?_⟩
      · exact (Int.lt_of_le_of_lt older newer).le
      · intro equal
        exact absurd equal (Int.ne_of_lt (Int.lt_of_le_of_lt older newer))
    · rw [Function.update_of_ne same]
      exact tracked.snapshot worker mem current

end Tracked

namespace Session

/-- The workers of the session are tracked. -/
def IsTracked (st : Session Uri Content Diagnostics Index Pair) : Prop :=
  Tracked st.buffers st.inFlight st.epochs st.workers

/-- A dispatch spawns a worker for an open document without one, and does nothing else. -/
theorem requestDispatch_cases (st : Session Uri Content Diagnostics Index Pair) (uri : Uri) :
    (st.requestDispatch uri = st ∧ (st.inFlight uri = true ∨ st.buffers uri = none)) ∨
    ∃ buffer, st.buffers uri = some buffer ∧ st.inFlight uri = false ∧
      st.requestDispatch uri = st.spawnWorker uri buffer := by
  rw [requestDispatch]
  by_cases busy : st.inFlight uri = true
  · left
    exact ⟨if_pos busy, .inl busy⟩
  · rw [if_neg busy]
    rcases opened : st.buffers uri with _ | buffer
    · left
      exact ⟨rfl, .inr rfl⟩
    · right
      exact ⟨buffer, rfl, Bool.eq_false_iff.mpr busy, rfl⟩

theorem isTracked_requestDispatch {st : Session Uri Content Diagnostics Index Pair} (uri : Uri)
    (tracked : st.IsTracked) : (st.requestDispatch uri).IsTracked := by
  rcases st.requestDispatch_cases uri with ⟨same, -⟩ | ⟨buffer, opened, idle, spawned⟩
  · rw [same]
    exact tracked
  · rw [spawned]
    exact Tracked.spawn tracked opened idle st.project

/-- What a dispatch preserves, the dispatch of a list preserves. -/
theorem dispatchAll_induction {holds : Session Uri Content Diagnostics Index Pair → Prop}
    (dispatch : ∀ st uri, holds st → holds (st.requestDispatch uri))
    {st : Session Uri Content Diagnostics Index Pair} (order : List Uri) (initially : holds st) :
    holds (st.dispatchAll order) := by
  rw [dispatchAll]
  induction order generalizing st with
  | nil => exact initially
  | cons uri order ih => exact ih (dispatch st uri initially)

theorem isTracked_dispatchAll {st : Session Uri Content Diagnostics Index Pair} (order : List Uri)
    (tracked : st.IsTracked) : (st.dispatchAll order).IsTracked :=
  dispatchAll_induction (fun _ uri holds => isTracked_requestDispatch uri holds) order tracked

/-- A dispatch starts workers; it leaves the documents, the project, the guard, the cache and
the publications alone. -/
structure SameBut (before after : Session Uri Content Diagnostics Index Pair) : Prop where
  buffers : after.buffers = before.buffers
  epochs : after.epochs = before.epochs
  project : after.project = before.project
  guard : after.guard = before.guard
  crossfile : after.crossfile = before.crossfile
  published : after.published = before.published
  requested : after.requested = before.requested
  built : after.built = before.built

theorem SameBut.refl (st : Session Uri Content Diagnostics Index Pair) : SameBut st st :=
  ⟨rfl, rfl, rfl, rfl, rfl, rfl, rfl, rfl⟩

theorem SameBut.trans {first second third : Session Uri Content Diagnostics Index Pair}
    (one : SameBut first second) (two : SameBut second third) : SameBut first third :=
  ⟨two.buffers.trans one.buffers, two.epochs.trans one.epochs, two.project.trans one.project,
    two.guard.trans one.guard, two.crossfile.trans one.crossfile,
    two.published.trans one.published, two.requested.trans one.requested,
    two.built.trans one.built⟩

theorem sameBut_requestDispatch (st : Session Uri Content Diagnostics Index Pair) (uri : Uri) :
    SameBut st (st.requestDispatch uri) := by
  rcases st.requestDispatch_cases uri with ⟨same, -⟩ | ⟨buffer, -, -, spawned⟩
  · rw [same]
    exact .refl st
  · rw [spawned]
    exact ⟨rfl, rfl, rfl, rfl, rfl, rfl, rfl, rfl⟩

theorem sameBut_dispatchAll (st : Session Uri Content Diagnostics Index Pair) (order : List Uri) :
    SameBut st (st.dispatchAll order) :=
  dispatchAll_induction (fun _ uri holds => holds.trans (sameBut_requestDispatch _ uri)) order
    (.refl st)

/-- A swap of the project context leaves the documents and their workers alone. -/
structure SameDocuments (before after : Session Uri Content Diagnostics Index Pair) : Prop where
  buffers : after.buffers = before.buffers
  pending : after.pending = before.pending
  inFlight : after.inFlight = before.inFlight
  epochs : after.epochs = before.epochs
  workers : after.workers = before.workers
  published : after.published = before.published
  requested : after.requested = before.requested

theorem sameDocuments_swapProject (st : Session Uri Content Diagnostics Index Pair)
    (overlay : Option (List (HeldFile Pair))) : SameDocuments st (st.swapProject overlay) :=
  ⟨rfl, rfl, rfl, rfl, rfl, rfl, rfl⟩

theorem sameDocuments_applyFullOverlayBuild (ctx : ServerContext)
    (st : Session Uri Content Diagnostics Index Pair) (build : OverlayBuild Pair) :
    SameDocuments st (st.applyFullOverlayBuild ctx build) :=
  ⟨rfl, rfl, rfl, rfl, rfl, rfl, rfl⟩

theorem sameDocuments_reharvest (ctx : ServerContext)
    (st : Session Uri Content Diagnostics Index Pair)
    (batch : List (HeldFile Pair) → Reharvest Pair) (build : OverlayBuild Pair) :
    SameDocuments st (st.reharvest ctx batch build) := by
  rw [reharvest]
  split
  · exact sameDocuments_swapProject st none
  · split
    · exact sameDocuments_applyFullOverlayBuild ctx st build
    · exact sameDocuments_swapProject st _

theorem sameDocuments_sampleGuard (ctx : ServerContext)
    (st : Session Uri Content Diagnostics Index Pair) (overlayBuild : Option Nat) :
    SameDocuments st (st.sampleGuard ctx overlayBuild) := by
  unfold sampleGuard
  split
  · exact ⟨rfl, rfl, rfl, rfl, rfl, rfl, rfl⟩
  · split
    · dsimp only
      split <;> exact ⟨rfl, rfl, rfl, rfl, rfl, rfl, rfl⟩
    · exact ⟨rfl, rfl, rfl, rfl, rfl, rfl, rfl⟩

theorem SameDocuments.isTracked {before after : Session Uri Content Diagnostics Index Pair}
    (same : SameDocuments before after) (tracked : before.IsTracked) : after.IsTracked := by
  rw [IsTracked, same.buffers, same.inFlight, same.epochs, same.workers]
  exact tracked

/-- What handling a result does: nothing for a closed document, a publication if the result
is current, and a dispatch if it is stale. -/
theorem settleResult_cases (st : Session Uri Content Diagnostics Index Pair)
    (worker : Worker Uri Content Pair) (answer : Answer Diagnostics Index) :
    (st.buffers worker.uri = none ∧ st.settleResult worker answer = st) ∨
    ∃ buffer, st.buffers worker.uri = some buffer ∧
      ((st.live worker buffer = true ∧
          st.settleResult worker answer = st.publishResult worker answer) ∨
        (st.live worker buffer = false ∧
          st.settleResult worker answer = st.requestDispatch worker.uri)) := by
  rw [settleResult]
  rcases opened : st.buffers worker.uri with _ | buffer
  · left
    exact ⟨rfl, rfl⟩
  · right
    refine ⟨buffer, rfl, ?_⟩
    cases current : st.live worker buffer with
    | true =>
        left
        exact ⟨rfl, if_pos current⟩
    | false =>
        right
        exact ⟨rfl, if_neg (Bool.eq_false_iff.mp current)⟩

theorem isTracked_settleResult {st : Session Uri Content Diagnostics Index Pair}
    (worker : Worker Uri Content Pair) (answer : Answer Diagnostics Index)
    (tracked : st.IsTracked) : (st.settleResult worker answer).IsTracked := by
  rcases st.settleResult_cases worker answer with
    ⟨-, same⟩ | ⟨buffer, -, ⟨-, same⟩ | ⟨-, same⟩⟩
  · rw [same]
    exact tracked
  · rw [same]
    exact tracked
  · rw [same]
    exact isTracked_requestDispatch worker.uri tracked

/-- The session in which a result is handled: the worker is gone. -/
def received (st : Session Uri Content Diagnostics Index Pair) (place : Nat)
    (worker : Worker Uri Content Pair) : Session Uri Content Diagnostics Index Pair :=
  { st with
    workers := st.workers.eraseIdx place
    inFlight := Function.update st.inFlight worker.uri false }

theorem step_computed (ctx : ServerContext) (st : Session Uri Content Diagnostics Index Pair)
    {place : Nat} {worker : Worker Uri Content Pair} (found : st.workers[place]? = some worker)
    (answer : Answer Diagnostics Index) :
    st.step ctx (.computed place answer) =
      ((st.received place worker).settleResult worker answer).sampleGuard ctx
        answer.overlayBuild := by
  rw [step, found]
  rfl

theorem isTracked_step (ctx : ServerContext) (st : Session Uri Content Diagnostics Index Pair)
    (event : Event Uri Content Diagnostics Index Pair) (enabled : Enabled event st)
    (tracked : st.IsTracked) : (step ctx event st).IsTracked := by
  cases event with
  | didOpen uri text version =>
      exact isTracked_requestDispatch uri (Tracked.bump tracked uri (some ⟨text, version⟩))
  | didChange uri text version now => exact Tracked.change tracked enabled
  | didClose uri => exact Tracked.bump tracked uri none
  | fireDue now order => exact isTracked_dispatchAll order tracked
  | sources batch build order =>
      have swapped := (st.sameDocuments_reharvest ctx batch build).isTracked tracked
      exact isTracked_dispatchAll order swapped
  | structural build order =>
      have swapped := (st.sameDocuments_applyFullOverlayBuild ctx build).isTracked tracked
      exact isTracked_dispatchAll order swapped
  | query uri => exact tracked
  | computed place answer =>
      obtain ⟨worker, found, -⟩ := enabled
      have delivered : (st.received place worker).IsTracked := Tracked.deliver tracked found
      have settled := isTracked_settleResult worker answer delivered
      rw [step_computed ctx st found]
      exact (sameDocuments_sampleGuard ctx _ _).isTracked settled

theorem isTracked_start (budget : Nat) (build : OverlayBuild Pair) :
    (start budget build : Session Uri Content Diagnostics Index Pair).IsTracked where
  unique := .nil
  flying := by simp [start]
  past := by simp [start]
  snapshot := by simp [start]

theorem isTracked_of_reachable {ctx : ServerContext}
    {st : Session Uri Content Diagnostics Index Pair} (reachable : (system ctx).Reachable st) :
    st.IsTracked := by
  apply reachable.invariant IsTracked
  · rintro st ⟨build, rfl⟩
    exact isTracked_start _ build
  · exact fun st event enabled tracked => isTracked_step ctx st event enabled tracked

/-! ## Publications -/

/-- The worker computed from the current text of an open document, under the current
generation and epoch. -/
def Current (st : Session Uri Content Diagnostics Index Pair) (worker : Worker Uri Content Pair) :
    Prop :=
  ∃ buffer, st.buffers worker.uri = some buffer ∧ worker.text = buffer.bytes ∧
    worker.version = buffer.version ∧ worker.project.generation = st.project.generation ∧
    worker.epoch = st.epochs worker.uri

/-- The version, generation and epoch of a result suffice for its text. -/
theorem current_of_live {st : Session Uri Content Diagnostics Index Pair}
    (tracked : st.IsTracked) {worker : Worker Uri Content Pair} (member : worker ∈ st.workers)
    {buffer : BufferEntry Content} (opened : st.buffers worker.uri = some buffer)
    (live : st.live worker buffer = true) : st.Current worker := by
  simp only [Session.live, Bool.and_eq_true, decide_eq_true_eq] at live
  obtain ⟨⟨version, generation⟩, epoch⟩ := live
  obtain ⟨captured, here, -, same⟩ := tracked.snapshot worker member epoch
  obtain rfl := Option.some.inj (opened.symm.trans here)
  exact ⟨buffer, opened, same version.symm, version.symm, generation, epoch⟩

/-- What one event publishes: the clear of a closed document, or one current result. -/
theorem published_step (ctx : ServerContext) (st : Session Uri Content Diagnostics Index Pair)
    (event : Event Uri Content Diagnostics Index Pair) (enabled : Enabled event st)
    (tracked : st.IsTracked) :
    (step ctx event st).published = st.published ∨
    (∃ uri, event = .didClose uri ∧
      (step ctx event st).published = .clear uri :: st.published) ∨
    ∃ place worker answer, event = .computed place answer ∧ st.workers[place]? = some worker ∧
      st.Current worker ∧ (step ctx event st).published = .result worker answer :: st.published := by
  cases event with
  | didOpen uri text version =>
      left
      exact (sameBut_requestDispatch _ uri).published
  | didChange uri text version now => exact .inl rfl
  | didClose uri =>
      right
      left
      exact ⟨uri, rfl, rfl⟩
  | fireDue now order =>
      left
      exact (sameBut_dispatchAll _ order).published
  | sources batch build order =>
      left
      exact (sameBut_dispatchAll _ order).published.trans
        (st.sameDocuments_reharvest ctx batch build).published
  | structural build order =>
      left
      exact (sameBut_dispatchAll _ order).published.trans
        (st.sameDocuments_applyFullOverlayBuild ctx build).published
  | query uri => exact .inl rfl
  | computed place answer =>
      obtain ⟨worker, found, -⟩ := enabled
      have sampled := sameDocuments_sampleGuard ctx
        ((st.received place worker).settleResult worker answer) answer.overlayBuild
      rw [step_computed ctx st found, sampled.published]
      rcases (st.received place worker).settleResult_cases worker answer with
        ⟨-, same⟩ | ⟨buffer, opened, ⟨live, same⟩ | ⟨-, same⟩⟩
      · left
        rw [same]
        rfl
      · right
        right
        have member : worker ∈ st.workers := List.mem_of_getElem? found
        refine ⟨place, worker, answer, rfl, found, ?_, by rw [same]; rfl⟩
        exact current_of_live tracked member opened live
      · left
        rw [same]
        exact (sameBut_requestDispatch _ worker.uri).published

/-! ## Closed documents -/

/-- The event opens the document or changes it. -/
def Addresses (uri : Uri) : Event Uri Content Diagnostics Index Pair → Prop
  | .didOpen opened _ _ => opened = uri
  | .didChange changed _ _ _ => changed = uri
  | _ => False

theorem buffers_step (ctx : ServerContext) {st : Session Uri Content Diagnostics Index Pair}
    {event : Event Uri Content Diagnostics Index Pair} {uri : Uri} (other : ¬ Addresses uri event)
    (closed : st.buffers uri = none) : (step ctx event st).buffers uri = none := by
  cases event with
  | didOpen opened text version =>
      rw [step, didOpen, (sameBut_requestDispatch _ opened).buffers, recordOpen]
      dsimp only [bumpEpoch]
      rw [Function.update_of_ne (Ne.symm other)]
      exact closed
  | didChange changed text version now =>
      rw [step, didChange]
      dsimp only
      rw [Function.update_of_ne (Ne.symm other)]
      exact closed
  | didClose shut =>
      rw [step, didClose]
      dsimp only [bumpEpoch]
      by_cases same : uri = shut
      · rw [same, Function.update_self]
      · rw [Function.update_of_ne same]
        exact closed
  | fireDue now order =>
      rw [step, fireDue, (sameBut_dispatchAll _ order).buffers]
      exact closed
  | sources batch build order =>
      rw [step, reanalyzeOpenBuffers, (sameBut_dispatchAll _ order).buffers]
      dsimp only
      rw [(st.sameDocuments_reharvest ctx batch build).buffers]
      exact closed
  | structural build order =>
      rw [step, reanalyzeOpenBuffers, (sameBut_dispatchAll _ order).buffers]
      exact closed
  | query asked => exact closed
  | computed place answer =>
      rcases found : st.workers[place]? with _ | worker
      · rw [step, found]
        exact closed
      · rw [step_computed ctx st found, (sameDocuments_sampleGuard ctx _ _).buffers]
        rcases (st.received place worker).settleResult_cases worker answer with
          ⟨-, same⟩ | ⟨buffer, -, ⟨-, same⟩ | ⟨-, same⟩⟩
        · rw [same]
          exact closed
        · rw [same]
          exact closed
        · rw [same, (sameBut_requestDispatch _ worker.uri).buffers]
          exact closed

/-- Since some point the document is closed and has only been cleared. -/
structure Quiet (uri : Uri) (base : List (Publication Uri Content Diagnostics Index Pair))
    (st : Session Uri Content Diagnostics Index Pair) : Prop where
  tracked : st.IsTracked
  closed : st.buffers uri = none
  cleared : ∃ news, st.published = news ++ base ∧
    ∀ publication ∈ news, publication.uri = uri → publication = .clear uri

theorem quiet_step (ctx : ServerContext) {st : Session Uri Content Diagnostics Index Pair}
    {event : Event Uri Content Diagnostics Index Pair} {uri : Uri}
    {base : List (Publication Uri Content Diagnostics Index Pair)} (other : ¬ Addresses uri event)
    (enabled : Enabled event st) (quiet : st.Quiet uri base) :
    (step ctx event st).Quiet uri base := by
  refine ⟨isTracked_step ctx st event enabled quiet.tracked, buffers_step ctx other quiet.closed, ?_⟩
  obtain ⟨news, since, cleared⟩ := quiet.cleared
  rcases published_step ctx st event enabled quiet.tracked with
    same | ⟨shut, -, published⟩ | ⟨place, worker, answer, -, -, current, published⟩
  · exact ⟨news, by rw [same, since], cleared⟩
  · refine ⟨.clear shut :: news, by rw [published, since]; rfl, ?_⟩
    intro publication mem here
    rcases List.mem_cons.mp mem with rfl | old
    · exact congrArg Publication.clear here
    · exact cleared publication old here
  · refine ⟨.result worker answer :: news, by rw [published, since]; rfl, ?_⟩
    intro publication mem here
    rcases List.mem_cons.mp mem with rfl | old
    · obtain ⟨buffer, opened, -⟩ := current
      have same : worker.uri = uri := here
      rw [same, quiet.closed] at opened
      contradiction
    · exact cleared publication old here

/-- Workers are tracked, a published result is current, and after a close a document is only
cleared until an event opens or changes it. -/
theorem publications_sound (ctx : ServerContext)
    (st : Session Uri Content Diagnostics Index Pair) (reachable : (system ctx).Reachable st) :
    (st.workers.map Worker.uri).Nodup ∧
    (∀ uri, st.inFlight uri = true ↔ ∃ worker ∈ st.workers, worker.uri = uri) ∧
    (∀ event, Enabled event st → ∃ news, (step ctx event st).published = news ++ st.published ∧
      ∀ worker answer, .result worker answer ∈ news → st.Current worker) ∧
    ∀ uri events final, (system ctx).Run (step ctx (.didClose uri) st) events final →
      (∀ event ∈ events, ¬ Addresses uri event) →
        ∃ news, final.published = news ++ .clear uri :: st.published ∧
          ∀ publication ∈ news, publication.uri = uri → publication = .clear uri := by
  have tracked := isTracked_of_reachable reachable
  refine ⟨tracked.unique, tracked.flying, ?_, ?_⟩
  · intro event enabled
    rcases published_step ctx st event enabled tracked with
      same | ⟨uri, -, published⟩ | ⟨place, worker, answer, -, -, current, published⟩
    · exact ⟨[], same, by simp⟩
    · exact ⟨[.clear uri], published, by simp⟩
    · refine ⟨[.result worker answer], published, ?_⟩
      intro other reply mem
      obtain ⟨rfl, -⟩ := Publication.result.inj (List.mem_singleton.mp mem)
      exact current
  · intro uri events final run others
    have start : (step ctx (.didClose uri) st).Quiet uri (.clear uri :: st.published) := by
      refine ⟨isTracked_step ctx st _ trivial tracked, ?_, [], rfl, by simp⟩
      exact Function.update_self uri none st.buffers
    have quiet : final.Quiet uri (.clear uri :: st.published) :=
      run.invariant (Quiet uri _) (fun event => ¬ Addresses uri event)
        (fun _ _ other enabled quiet => quiet_step ctx other enabled quiet) others start
    exact quiet.cleared

/-! ## A change after a close -/

section ChangeAfterClose

/-- A session over numbers. -/
abbrev Small :=
  Session Nat Nat Nat Nat Unit

def smallContext : ServerContext :=
  ⟨200, 100⟩

def emptyProject : OverlayBuild Unit :=
  ⟨[], 0⟩

def smallStart : Small :=
  start smallContext.overlayBudget emptyProject

def plainAnswer : Answer Nat Nat :=
  ⟨7, none, none⟩

/-- The document is opened. -/
def smallOpened : Small :=
  step smallContext (.didOpen 0 10 1) smallStart

theorem reachable_smallOpened : (system smallContext).Reachable smallOpened := by
  have initial : (system smallContext).Reachable smallStart := .of_initial ⟨emptyProject, rfl⟩
  have enabled : (system smallContext).Enabled (.didOpen 0 10 1) smallStart := trivial
  exact initial.step enabled

theorem publications_sound_opened :
    (smallOpened.workers.map Worker.uri).Nodup ∧ smallOpened.inFlight 0 = true := by
  obtain ⟨unique, flying, -⟩ := publications_sound smallContext smallOpened reachable_smallOpened
  exact ⟨unique, (flying 0).mpr ⟨_, List.mem_singleton_self _, rfl⟩⟩

/-- The document is closed, and a change for it arrives. -/
def lateChange : List (Event Nat Nat Nat Nat Unit) :=
  [.didChange 0 11 2 0, .computed 0 plainAnswer, .computed 0 plainAnswer]

/-- After a close a change starts new publications, without a new open. -/
theorem publishes_after_close : (system smallContext).Reachable smallOpened ∧
    ∃ final worker,
      (system smallContext).Run (step smallContext (.didClose 0) smallOpened) lateChange final ∧
      (∀ event ∈ lateChange, ∀ text version, event ≠ .didOpen 0 text version) ∧
      final.published = .result worker plainAnswer :: .clear 0 :: smallOpened.published ∧
      worker.uri = 0 := by
  refine ⟨reachable_smallOpened, _, ⟨0, 11, 2, ⟨0, none⟩, 2⟩, .cons ?_ (.cons ?_ (.cons ?_ (.nil _))),
    ?_, rfl, rfl⟩
  · intro buffer opened
    simp [smallOpened, step, didClose, bumpEpoch] at opened
  · exact ⟨_, rfl, rfl, by simp [plainAnswer]⟩
  · exact ⟨_, rfl, rfl, by simp [plainAnswer]⟩
  · simp [lateChange]

end ChangeAfterClose

end Session

end Rigor.Cli.Lsp
