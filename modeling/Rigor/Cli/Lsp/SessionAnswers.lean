import Rigor.Cli.Lsp.SessionRuns

/-!
# No lost update

Every open document has a worker in flight, or a pending publish, or shows the
diagnostics of its current text.  A swap of the project context dispatches all open
documents, except the swap after a guard trip: it follows a publication and re-dispatches
only what is in flight, so a document may keep the diagnostics it shows.
-/

namespace Rigor.Cli.Lsp

open Rigor.Library.Runs

universe u

variable {Uri Content Diagnostics Index : Type u} {Pair : Type} [DecidableEq Uri]

namespace Session

/-- The last publication for a document. -/
def lastPublished (st : Session Uri Content Diagnostics Index Pair) (uri : Uri) :
    Option (Publication Uri Content Diagnostics Index Pair) :=
  st.published.find? fun publication => publication.uri = uri

/-- The document shows a result for its current text, under a generation no older than `oldest`
and no newer than the current one. -/
def Shows (st : Session Uri Content Diagnostics Index Pair) (uri : Uri) (oldest : Nat) : Prop :=
  ∃ buffer worker answer, st.buffers uri = some buffer ∧
    st.lastPublished uri = some (.result worker answer) ∧ worker.text = buffer.bytes ∧
    oldest ≤ worker.project.generation ∧ worker.project.generation ≤ st.project.generation

/-- The document has a worker in flight or a pending publish, or shows its diagnostics. -/
def Owed (st : Session Uri Content Diagnostics Index Pair) (uri : Uri) (oldest : Nat) : Prop :=
  st.inFlight uri = true ∨ (st.pending uri).isSome = true ∨ st.Shows uri oldest

/-- Every open document is answered, but for guard trips after its last publication. -/
structure Answered (st : Session Uri Content Diagnostics Index Pair) : Prop where
  past : st.requested ≤ st.project.generation
  owed : ∀ uri, (st.buffers uri).isSome = true → st.Owed uri st.requested

/-! ## Dispatches -/

variable {st : Session Uri Content Diagnostics Index Pair}

theorem SameBut.shows {before after : Session Uri Content Diagnostics Index Pair}
    (same : SameBut before after) {uri : Uri} {oldest : Nat} (shows : before.Shows uri oldest) :
    after.Shows uri oldest := by
  rw [Shows, lastPublished, same.buffers, same.published, same.project]
  exact shows

theorem inFlight_requestDispatch (st : Session Uri Content Diagnostics Index Pair) {uri : Uri}
    (opened : (st.buffers uri).isSome = true) : (st.requestDispatch uri).inFlight uri = true := by
  rcases st.requestDispatch_cases uri with ⟨same, busy | closed⟩ | ⟨buffer, -, -, spawned⟩
  · rw [same]
    exact busy
  · simp [closed] at opened
  · rw [spawned]
    exact Function.update_self uri true st.inFlight

theorem inFlight_mono (st : Session Uri Content Diagnostics Index Pair) (uri : Uri) {other : Uri}
    (busy : st.inFlight other = true) : (st.requestDispatch uri).inFlight other = true := by
  rcases st.requestDispatch_cases uri with ⟨same, -⟩ | ⟨buffer, -, -, spawned⟩
  · rw [same]
    exact busy
  · rw [spawned, spawnWorker]
    dsimp only
    by_cases self : other = uri
    · rw [self, Function.update_self]
    · rw [Function.update_of_ne self]
      exact busy

theorem owed_requestDispatch (st : Session Uri Content Diagnostics Index Pair) (uri : Uri)
    {other : Uri} {oldest : Nat} (owed : st.Owed other oldest) :
    (st.requestDispatch uri).Owed other oldest := by
  rcases owed with busy | waits | shows
  · left
    exact inFlight_mono st uri busy
  · rcases st.requestDispatch_cases uri with ⟨same, -⟩ | ⟨buffer, -, -, spawned⟩
    · rw [same]
      exact .inr (.inl waits)
    · by_cases self : other = uri
      · left
        rw [spawned, self]
        exact Function.update_self uri true st.inFlight
      · right
        left
        rw [spawned, spawnWorker]
        dsimp only
        rw [Function.update_of_ne self]
        exact waits
  · right
    right
    exact (sameBut_requestDispatch st uri).shows shows

theorem owed_dispatchAll (order : List Uri) {other : Uri} {oldest : Nat}
    (owed : st.Owed other oldest) : (st.dispatchAll order).Owed other oldest :=
  dispatchAll_induction (fun later uri holds => owed_requestDispatch later uri holds) order owed

/-- After the dispatches every open document of the list has a worker. -/
theorem inFlight_dispatchAll {order : List Uri} {uri : Uri} (listed : uri ∈ order)
    (opened : (st.buffers uri).isSome = true) : (st.dispatchAll order).inFlight uri = true := by
  induction order generalizing st with
  | nil => simp at listed
  | cons first order ih =>
      rw [dispatchAll, List.foldl_cons]
      rcases List.mem_cons.mp listed with rfl | later
      · exact dispatchAll_induction (fun later other busy => inFlight_mono later other busy) order
          (inFlight_requestDispatch st opened)
      · apply ih later
        rw [(sameBut_requestDispatch st first).buffers]
        exact opened

/-! ## Steps -/

theorem lastPublished_of_cons {publication : Publication Uri Content Diagnostics Index Pair}
    {before after : Session Uri Content Diagnostics Index Pair} {uri : Uri}
    (published : after.published = publication :: before.published) (other : publication.uri ≠ uri) :
    after.lastPublished uri = before.lastPublished uri := by
  rw [lastPublished, published, List.find?_cons_of_neg (by simpa using other)]
  rfl

/-- A swap keeps what a document is owed. -/
theorem SameDocuments.owed {before after : Session Uri Content Diagnostics Index Pair}
    (same : SameDocuments before after)
    (later : before.project.generation ≤ after.project.generation) {uri : Uri} {oldest : Nat}
    (owed : before.Owed uri oldest) : after.Owed uri oldest := by
  rcases owed with busy | waits | ⟨buffer, worker, answer, opened, last, text, from_, until_⟩
  · left
    rw [same.inFlight]
    exact busy
  · right
    left
    rw [same.pending]
    exact waits
  · right
    right
    refine ⟨buffer, worker, answer, ?_, ?_, text, from_, until_.trans later⟩
    · rw [same.buffers]
      exact opened
    · rw [lastPublished, same.published]
      exact last

theorem generation_sampleGuard (ctx : ServerContext)
    (st : Session Uri Content Diagnostics Index Pair) (overlayBuild : Option Nat) :
    st.project.generation ≤ (st.sampleGuard ctx overlayBuild).project.generation := by
  unfold sampleGuard
  split
  · exact Nat.le_refl _
  · split
    · dsimp only
      split
      · exact Nat.le_succ _
      · exact Nat.le_refl _
    · exact Nat.le_refl _

/-- Opening a document dispatches it. -/
theorem answered_didOpen (answered : st.Answered) (uri : Uri) (text : Content) (version : Int) :
    (st.didOpen uri text version).Answered := by
  have same := sameBut_requestDispatch (st.recordOpen uri text version) uri
  refine ⟨?_, fun other opened => ?_⟩
  · rw [didOpen, same.requested, same.project]
    exact answered.past
  · rw [didOpen, same.buffers] at opened
    rw [didOpen, same.requested]
    by_cases self : other = uri
    · left
      rw [self] at opened ⊢
      exact inFlight_requestDispatch _ opened
    · apply owed_requestDispatch
      have kept : (st.recordOpen uri text version).buffers other = st.buffers other :=
        Function.update_of_ne self _ _
      rw [kept] at opened
      rcases answered.owed other opened with
        busy | waits | ⟨buffer, worker, answer, here, last, rest⟩
      · exact .inl busy
      · right
        left
        rw [recordOpen]
        dsimp only [bumpEpoch]
        rw [Function.update_of_ne self]
        exact waits
      · right
        right
        exact ⟨buffer, worker, answer, kept.trans here, last, rest⟩

/-- A change schedules a publish. -/
theorem answered_didChange (answered : st.Answered) (ctx : ServerContext) (uri : Uri)
    (text : Content) (version : Int) (now : Instant) :
    (st.didChange ctx uri text version now).Answered := by
  refine ⟨answered.past, fun other opened => ?_⟩
  by_cases self : other = uri
  · right
    left
    simp [didChange, self]
  · have stillOpen : (st.buffers other).isSome = true := by
      rw [didChange] at opened
      dsimp only at opened
      rwa [Function.update_of_ne self] at opened
    rcases answered.owed other stillOpen with
      busy | waits | ⟨buffer, worker, answer, here, last, rest⟩
    · exact .inl busy
    · right
      left
      rw [didChange]
      dsimp only
      rw [Function.update_of_ne self]
      exact waits
    · right
      right
      refine ⟨buffer, worker, answer, ?_, last, rest⟩
      rw [didChange]
      dsimp only
      rw [Function.update_of_ne self]
      exact here

/-- A closed document is owed nothing, and the others lose nothing. -/
theorem answered_didClose (answered : st.Answered) (uri : Uri) : (st.didClose uri).Answered := by
  refine ⟨answered.past, fun other opened => ?_⟩
  by_cases self : other = uri
  · simp [didClose, bumpEpoch, self] at opened
  · have stillOpen : (st.buffers other).isSome = true := by
      rw [didClose] at opened
      dsimp only [bumpEpoch] at opened
      rwa [Function.update_of_ne self] at opened
    rcases answered.owed other stillOpen with
      busy | waits | ⟨buffer, worker, answer, here, last, rest⟩
    · exact .inl busy
    · right
      left
      rw [didClose]
      dsimp only [bumpEpoch]
      rw [Function.update_of_ne self]
      exact waits
    · right
      right
      refine ⟨buffer, worker, answer, ?_, ?_, rest⟩
      · rw [didClose]
        dsimp only [bumpEpoch]
        rw [Function.update_of_ne self]
        exact here
      · have published : (st.didClose uri).published = .clear uri :: st.published := rfl
        rw [lastPublished_of_cons published (Ne.symm self)]
        exact last

/-- A due publish becomes a dispatch. -/
theorem answered_fireDue (answered : st.Answered) {now : Instant} {order : List Uri}
    (due : ∀ uri, uri ∈ order ↔ ∃ deadline, st.pending uri = some deadline ∧ deadline ≤ now) :
    (st.fireDue now order).Answered := by
  have same := sameBut_dispatchAll
    { st with pending := fun uri => (st.pending uri).filter fun deadline => now < deadline } order
  have requested : (st.fireDue now order).requested = st.requested := same.requested
  have project : (st.fireDue now order).project = st.project := same.project
  have buffers : (st.fireDue now order).buffers = st.buffers := same.buffers
  refine ⟨?_, fun uri opened => ?_⟩
  · rw [requested, project]
    exact answered.past
  rw [requested]
  rw [buffers] at opened
  rcases answered.owed uri opened with busy | waits | shows
  · exact owed_dispatchAll order (.inl busy)
  · obtain ⟨deadline, scheduled⟩ := Option.isSome_iff_exists.mp waits
    by_cases late : deadline ≤ now
    · left
      exact inFlight_dispatchAll ((due uri).mpr ⟨deadline, scheduled, late⟩) opened
    · apply owed_dispatchAll
      right
      left
      have early : now < deadline := Nat.not_le.mp late
      simp [scheduled, early]
  · exact owed_dispatchAll order (.inr (.inr shows))

/-- After a swap of the project every open document is dispatched. -/
theorem answered_reanalyze {swapped : Session Uri Content Diagnostics Index Pair}
    {order : List Uri} (listed : ∀ uri, uri ∈ order ↔ (swapped.buffers uri).isSome = true) :
    (swapped.reanalyzeOpenBuffers order).Answered := by
  have same := sameBut_dispatchAll { swapped with requested := swapped.project.generation } order
  refine ⟨?_, fun uri opened => ?_⟩
  · rw [reanalyzeOpenBuffers, same.requested, same.project]
  · left
    have buffers : (swapped.reanalyzeOpenBuffers order).buffers = swapped.buffers := same.buffers
    rw [buffers] at opened
    exact inFlight_dispatchAll ((listed uri).mpr opened) opened

/-- A result is shown, or its document is dispatched again. -/
theorem answered_settleResult (answered : st.Answered) (tracked : st.IsTracked) {place : Nat}
    {worker : Worker Uri Content Pair} (found : st.workers[place]? = some worker)
    (answer : Answer Diagnostics Index) :
    ((st.received place worker).settleResult worker answer).Answered := by
  have member : worker ∈ st.workers := List.mem_of_getElem? found
  -- the documents of other workers lose nothing when the result is taken
  have others (uri : Uri) (other : uri ≠ worker.uri) (owed : st.Owed uri st.requested) :
      (st.received place worker).Owed uri st.requested := by
    rcases owed with busy | waits | shows
    · left
      rw [received]
      dsimp only
      rw [Function.update_of_ne other]
      exact busy
    · exact .inr (.inl waits)
    · exact .inr (.inr shows)
  rcases (st.received place worker).settleResult_cases worker answer with
    ⟨closed, same⟩ | ⟨buffer, opened, ⟨live, same⟩ | ⟨-, same⟩⟩
  · rw [same]
    refine ⟨answered.past, fun uri opened => ?_⟩
    by_cases self : uri = worker.uri
    · rw [self, closed] at opened
      contradiction
    · exact others uri self (answered.owed uri opened)
  · rw [same]
    refine ⟨answered.past, fun uri isOpen => ?_⟩
    have published : ((st.received place worker).publishResult worker answer).published =
        .result worker answer :: st.published := rfl
    by_cases self : uri = worker.uri
    · right
      right
      obtain ⟨captured, here, text, -, generation, -⟩ := current_of_live tracked member opened live
      refine ⟨captured, worker, answer, ?_, ?_, text, ?_, generation.le⟩
      · rw [self]
        exact here
      · rw [lastPublished, published, List.find?_cons_of_pos (by simp [Publication.uri, self])]
      · rw [generation]
        exact answered.past
    · rcases others uri self (answered.owed uri isOpen) with
        busy | waits | ⟨captured, author, reply, here, last, rest⟩
      · exact .inl busy
      · exact .inr (.inl waits)
      · right
        right
        refine ⟨captured, author, reply, here, ?_, rest⟩
        have earlier : (st.received place worker).lastPublished uri = st.lastPublished uri := rfl
        rw [lastPublished_of_cons published (Ne.symm self), ← earlier]
        exact last
  · rw [same]
    have unchanged := sameBut_requestDispatch (st.received place worker) worker.uri
    refine ⟨?_, fun uri isOpen => ?_⟩
    · rw [unchanged.requested, unchanged.project]
      exact answered.past
    rw [unchanged.buffers] at isOpen
    rw [unchanged.requested]
    by_cases self : uri = worker.uri
    · left
      rw [self]
      apply inFlight_requestDispatch
      simp [opened]
    · exact owed_requestDispatch _ worker.uri (others uri self (answered.owed uri isOpen))

theorem answered_step (ctx : ServerContext) (event : Event Uri Content Diagnostics Index Pair)
    (enabled : Enabled event st) (tracked : st.IsTracked) (answered : st.Answered) :
    (step ctx event st).Answered := by
  cases event with
  | didOpen uri text version => exact answered_didOpen answered uri text version
  | didChange uri text version now => exact answered_didChange answered ctx uri text version now
  | didClose uri => exact answered_didClose answered uri
  | fireDue now order => exact answered_fireDue answered enabled
  | sources batch build order =>
      apply answered_reanalyze
      rw [(st.sameDocuments_reharvest ctx batch build).buffers]
      exact enabled
  | structural build order => exact answered_reanalyze enabled
  | query uri => exact ⟨answered.past, answered.owed⟩
  | computed place answer =>
      obtain ⟨worker, found, -⟩ := enabled
      have settled := answered_settleResult answered tracked found answer
      have swapped := sameDocuments_sampleGuard ctx
        ((st.received place worker).settleResult worker answer) answer.overlayBuild
      have later := generation_sampleGuard ctx
        ((st.received place worker).settleResult worker answer) answer.overlayBuild
      rw [step_computed ctx st found]
      refine ⟨?_, fun uri opened => ?_⟩
      · rw [swapped.requested]
        exact settled.past.trans later
      · rw [swapped.requested]
        rw [swapped.buffers] at opened
        exact swapped.owed later (settled.owed uri opened)

/-! ## Runs -/

theorem answered_start (budget : Nat) (build : OverlayBuild Pair) :
    (start budget build : Session Uri Content Diagnostics Index Pair).Answered :=
  ⟨Nat.le_refl _, fun _ opened => by simp [start] at opened⟩

/-- Every open document has a worker in flight, or a pending publish, or shows a result for its
current text that no change of the files or the configuration has followed. -/
theorem no_lost_update (ctx : ServerContext) (st : Session Uri Content Diagnostics Index Pair)
    (reachable : (system ctx).Reachable st) (uri : Uri) (opened : (st.buffers uri).isSome = true) :
    st.inFlight uri = true ∨ (st.pending uri).isSome = true ∨ st.Shows uri st.requested := by
  have both : st.IsTracked ∧ st.Answered := by
    apply reachable.invariant fun st => st.IsTracked ∧ st.Answered
    · rintro st ⟨build, rfl⟩
      exact ⟨isTracked_start _ build, answered_start _ build⟩
    · rintro st event enabled ⟨tracked, answered⟩
      exact ⟨isTracked_step ctx st event enabled tracked,
        answered_step ctx event enabled tracked answered⟩
  exact both.2.owed uri opened

/-! ## A guard trip after a publication -/

section GuardTrip

/-- One project file, built over budget. -/
def slowProject : OverlayBuild Unit :=
  ⟨[([], ())], 150⟩

def slowAnswer : Answer Nat Nat :=
  ⟨7, some 150, some 3⟩

def slowOpened : Small :=
  step smallContext (.didOpen 0 10 1) (start smallContext.overlayBudget slowProject)

def slowTripped : Small :=
  step smallContext (.computed 0 slowAnswer) slowOpened

theorem reachable_slowOpened : (system smallContext).Reachable slowOpened := by
  have initial : (system smallContext).Reachable
      (start smallContext.overlayBudget slowProject : Small) := .of_initial ⟨slowProject, rfl⟩
  have enabled : (system smallContext).Enabled (.didOpen 0 10 1)
      (start smallContext.overlayBudget slowProject : Small) := trivial
  exact initial.step enabled

theorem reachable_slowTripped : (system smallContext).Reachable slowTripped := by
  have enabled : (system smallContext).Enabled (.computed 0 slowAnswer) slowOpened :=
    ⟨_, rfl, rfl, fun _ => rfl⟩
  exact reachable_slowOpened.step enabled

theorem no_lost_update_opened : slowOpened.inFlight 0 = true ∨
    (slowOpened.pending 0).isSome = true ∨ slowOpened.Shows 0 slowOpened.requested :=
  no_lost_update smallContext slowOpened reachable_slowOpened 0 rfl

/-- The publication trips the guard: the document then shows a result of the generation
before the swap, with nothing under way. -/
theorem lost_update_tripped : (system smallContext).Reachable slowTripped ∧
    (slowTripped.buffers 0).isSome = true ∧ slowTripped.inFlight 0 = false ∧
    slowTripped.pending 0 = none ∧ ∃ worker answer,
      slowTripped.lastPublished 0 = some (.result worker answer) ∧
      worker.project.generation ≠ slowTripped.project.generation :=
  ⟨reachable_slowTripped, rfl, rfl, rfl, _, _, rfl, by decide⟩

end GuardTrip

end Session

end Rigor.Cli.Lsp
