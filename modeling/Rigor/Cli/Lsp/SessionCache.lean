import Rigor.Cli.Lsp.SessionRuns

/-!
# Cache, guard and project context

The cross-file cache, the overlay guard and the project context are written by different
handlers.  They keep step: the cache holds only what the current context published for
open documents, and the overlay is there exactly while the guard allows it and the
last full build found files.
-/

namespace Rigor.Cli.Lsp

open Rigor.Library.Runs

universe u

variable {Uri Content Diagnostics Index : Type u} {Pair : Type} [DecidableEq Uri]

namespace Session

/-- A result was published for the document, computed under the generation, with the index. -/
def Published (st : Session Uri Content Diagnostics Index Pair) (uri : Uri) (generation : Nat)
    (index : Index) : Prop :=
  ∃ worker answer, .result worker answer ∈ st.published ∧ worker.uri = uri ∧
    worker.project.generation = generation ∧ answer.projectIndex = some index

/-- The cache holds what was published for open documents under the current generation. -/
structure CacheSound (st : Session Uri Content Diagnostics Index Pair) : Prop where
  opened : ∀ entry ∈ st.crossfile.entries, (st.buffers entry.1).isSome = true
  current : ∀ entry ∈ st.crossfile.entries, entry.2.generation = st.project.generation
  published : ∀ entry ∈ st.crossfile.entries,
    st.Published entry.1 entry.2.generation entry.2.index

/-- With the guard off there is no overlay; with the guard on there is one, unless the last full
build found no files. -/
structure Lockstep (st : Session Uri Content Diagnostics Index Pair) : Prop where
  off : st.guard.enabled = false → st.project.overlay = none
  empty : st.guard.enabled = true → st.project.overlay = none → st.built = 0

/-! ## The cache -/

variable {st : Session Uri Content Diagnostics Index Pair}

theorem SameBut.cacheSound {before after : Session Uri Content Diagnostics Index Pair}
    (same : SameBut before after) (sound : before.CacheSound) : after.CacheSound := by
  constructor
  · rw [same.crossfile, same.buffers]
    exact sound.opened
  · rw [same.crossfile, same.project]
    exact sound.current
  · rw [same.crossfile]
    intro entry mem
    rw [Published, same.published]
    exact sound.published entry mem

theorem SameBut.lockstep {before after : Session Uri Content Diagnostics Index Pair}
    (same : SameBut before after) (lockstep : before.Lockstep) : after.Lockstep := by
  constructor
  · rw [same.guard, same.project]
    exact lockstep.off
  · rw [same.guard, same.project, same.built]
    exact lockstep.empty

/-- A swap empties the cache. -/
theorem cacheSound_of_empty {st : Session Uri Content Diagnostics Index Pair}
    (empty : st.crossfile.entries = []) : st.CacheSound := by
  constructor <;> simp [empty]

theorem cacheSound_reharvest (ctx : ServerContext) (st : Session Uri Content Diagnostics Index Pair)
    (batch : List (HeldFile Pair) → Reharvest Pair) (build : OverlayBuild Pair) :
    (st.reharvest ctx batch build).CacheSound := by
  apply cacheSound_of_empty
  rw [reharvest]
  split
  · rfl
  · split <;> rfl

theorem cacheSound_sampleGuard (ctx : ServerContext) (sound : st.CacheSound)
    (overlayBuild : Option Nat) : (st.sampleGuard ctx overlayBuild).CacheSound := by
  unfold sampleGuard
  split
  · exact sound
  · split
    · dsimp only
      split
      · exact cacheSound_of_empty rfl
      · exact ⟨sound.opened, sound.current, sound.published⟩
    · exact sound

theorem cacheSound_publishResult (sound : st.CacheSound) {worker : Worker Uri Content Pair}
    (current : st.Current worker) (answer : Answer Diagnostics Index) :
    (st.publishResult worker answer).CacheSound := by
  obtain ⟨buffer, opened, -, -, generation, -⟩ := current
  -- an entry is the stored one or an old one
  have cases (entry : Entry Uri Index)
      (mem : entry ∈ (st.publishResult worker answer).crossfile.entries) :
      (entry.1 = worker.uri ∧ entry.2.generation = worker.project.generation ∧
        answer.projectIndex = some entry.2.index) ∨ entry ∈ st.crossfile.entries := by
    rw [publishResult] at mem
    dsimp only at mem
    split at mem
    · rename_i index delivered
      rcases CrossFileCache.mem_store mem with rfl | old
      · exact .inl ⟨rfl, rfl, delivered⟩
      · exact .inr old
    · exact .inr mem
  constructor
  · intro entry mem
    rcases cases entry mem with ⟨same, -, -⟩ | old
    · rw [same]
      exact Option.isSome_iff_exists.mpr ⟨buffer, opened⟩
    · exact sound.opened entry old
  · intro entry mem
    rcases cases entry mem with ⟨-, same, -⟩ | old
    · exact same.trans generation
    · exact sound.current entry old
  · intro entry mem
    rcases cases entry mem with ⟨uri, same, index⟩ | old
    · exact ⟨worker, answer, List.mem_cons_self, uri.symm, same.symm, index⟩
    · obtain ⟨author, reply, earlier, rest⟩ := sound.published entry old
      exact ⟨author, reply, List.mem_cons_of_mem _ earlier, rest⟩

theorem cacheSound_step (ctx : ServerContext) (event : Event Uri Content Diagnostics Index Pair)
    (enabled : Enabled event st) (tracked : st.IsTracked) (sound : st.CacheSound) :
    (step ctx event st).CacheSound := by
  cases event with
  | didOpen uri text version =>
      apply (sameBut_requestDispatch _ uri).cacheSound
      refine ⟨fun entry mem => ?_, sound.current, sound.published⟩
      rw [recordOpen]
      dsimp only [bumpEpoch]
      by_cases same : entry.1 = uri
      · simp [same]
      · rw [Function.update_of_ne same]
        exact sound.opened entry mem
  | didChange uri text version now =>
      refine ⟨fun entry mem => ?_, sound.current, sound.published⟩
      rw [step, didChange]
      dsimp only
      by_cases same : entry.1 = uri
      · simp [same]
      · rw [Function.update_of_ne same]
        exact sound.opened entry mem
  | didClose uri =>
      refine ⟨fun entry mem => ?_, fun entry mem => ?_, fun entry mem => ?_⟩
      · obtain ⟨kept, other⟩ := mem_removeEntry.mp mem
        rw [step, didClose]
        dsimp only [bumpEpoch]
        rw [Function.update_of_ne other]
        exact sound.opened entry kept
      · exact sound.current entry (mem_removeEntry.mp mem).1
      · obtain ⟨worker, answer, earlier, rest⟩ :=
          sound.published entry (mem_removeEntry.mp mem).1
        exact ⟨worker, answer, List.mem_cons_of_mem _ earlier, rest⟩
  | fireDue now order =>
      apply (sameBut_dispatchAll _ order).cacheSound
      exact ⟨sound.opened, sound.current, sound.published⟩
  | sources batch build order =>
      have swapped := cacheSound_reharvest ctx st batch build
      apply (sameBut_dispatchAll _ order).cacheSound
      exact ⟨swapped.opened, swapped.current, swapped.published⟩
  | structural build order =>
      apply (sameBut_dispatchAll _ order).cacheSound
      exact cacheSound_of_empty rfl
  | query uri =>
      refine ⟨fun entry mem => ?_, fun entry mem => ?_, fun entry mem => ?_⟩
      · obtain ⟨old, inside, uri, -, -⟩ := CrossFileCache.mem_get mem
        rw [← uri]
        exact sound.opened old inside
      · obtain ⟨old, inside, -, -, generation⟩ := CrossFileCache.mem_get mem
        rw [← generation]
        exact sound.current old inside
      · obtain ⟨old, inside, uri, index, generation⟩ := CrossFileCache.mem_get mem
        rw [← uri, ← index, ← generation]
        exact sound.published old inside
  | computed place answer =>
      obtain ⟨worker, found, -⟩ := enabled
      have member : worker ∈ st.workers := List.mem_of_getElem? found
      have taken : (st.received place worker).CacheSound :=
        ⟨sound.opened, sound.current, sound.published⟩
      rw [step_computed ctx st found]
      apply cacheSound_sampleGuard
      rcases (st.received place worker).settleResult_cases worker answer with
        ⟨-, same⟩ | ⟨buffer, opened, ⟨live, same⟩ | ⟨-, same⟩⟩
      · rw [same]
        exact taken
      · rw [same]
        have current : (st.received place worker).Current worker :=
          current_of_live tracked member opened live
        exact cacheSound_publishResult taken current answer
      · rw [same]
        exact (sameBut_requestDispatch _ worker.uri).cacheSound taken

/-! ## The guard -/

theorem lockstep_applyFullOverlayBuild (ctx : ServerContext)
    (st : Session Uri Content Diagnostics Index Pair) (build : OverlayBuild Pair) :
    (st.applyFullOverlayBuild ctx build).Lockstep where
  off off := OverlayGuard.overlay_of_off off build
  empty on absent := OverlayGuard.files_of_overlay on absent

theorem lockstep_reharvest (ctx : ServerContext) (lockstep : st.Lockstep)
    (batch : List (HeldFile Pair) → Reharvest Pair) (build : OverlayBuild Pair) :
    (st.reharvest ctx batch build).Lockstep := by
  rw [reharvest]
  split
  · rename_i none_
    exact ⟨fun _ => rfl, fun on _ => lockstep.empty on none_⟩
  · rename_i files held
    split
    · exact lockstep_applyFullOverlayBuild ctx st build
    · refine ⟨fun off => ?_, fun _ none_ => ?_⟩
      · have absent := lockstep.off off
        rw [held] at absent
        contradiction
      · contradiction

theorem lockstep_sampleGuard (ctx : ServerContext) (lockstep : st.Lockstep)
    (overlayBuild : Option Nat) : (st.sampleGuard ctx overlayBuild).Lockstep := by
  unfold sampleGuard
  split
  · exact lockstep
  · rename_i sample
    split
    · rename_i on
      have recorded := st.guard.record_enabled sample ctx.overlayBudget on
      dsimp only
      split
      · rename_i tripped
        refine ⟨fun _ => rfl, fun still _ => ?_⟩
        exact absurd tripped (recorded.mp still)
      · rename_i quiet
        have still := recorded.mpr quiet
        refine ⟨fun off => ?_, fun _ none_ => lockstep.empty on none_⟩
        rw [still] at off
        contradiction
    · exact lockstep

theorem lockstep_step (ctx : ServerContext) (event : Event Uri Content Diagnostics Index Pair)
    (lockstep : st.Lockstep) : (step ctx event st).Lockstep := by
  cases event with
  | didOpen uri text version =>
      apply (sameBut_requestDispatch _ uri).lockstep
      exact ⟨lockstep.off, lockstep.empty⟩
  | didChange uri text version now => exact ⟨lockstep.off, lockstep.empty⟩
  | didClose uri => exact ⟨lockstep.off, lockstep.empty⟩
  | fireDue now order =>
      apply (sameBut_dispatchAll _ order).lockstep
      exact ⟨lockstep.off, lockstep.empty⟩
  | sources batch build order =>
      have swapped := lockstep_reharvest ctx lockstep batch build
      apply (sameBut_dispatchAll _ order).lockstep
      exact ⟨swapped.off, swapped.empty⟩
  | structural build order =>
      have swapped := lockstep_applyFullOverlayBuild ctx st build
      apply (sameBut_dispatchAll _ order).lockstep
      exact ⟨swapped.off, swapped.empty⟩
  | query uri => exact ⟨lockstep.off, lockstep.empty⟩
  | computed place answer =>
      rcases found : st.workers[place]? with _ | worker
      · rw [step, found]
        exact lockstep
      · rw [step_computed ctx st found]
        apply lockstep_sampleGuard
        have taken : (st.received place worker).Lockstep := ⟨lockstep.off, lockstep.empty⟩
        rcases (st.received place worker).settleResult_cases worker answer with
          ⟨-, same⟩ | ⟨buffer, -, ⟨-, same⟩ | ⟨-, same⟩⟩
        · rw [same]
          exact taken
        · rw [same]
          exact ⟨taken.off, taken.empty⟩
        · rw [same]
          exact (sameBut_requestDispatch _ worker.uri).lockstep taken

theorem lockstep_start (budget : Nat) (build : OverlayBuild Pair) :
    (start budget build : Session Uri Content Diagnostics Index Pair).Lockstep where
  off off := OverlayGuard.overlay_of_off off build
  empty on absent := OverlayGuard.files_of_overlay on absent

/-! ## Runs -/

/-- In every reachable session the cache is bounded, holds only current indexes that were
published for their own open document, and drops the least recently used; a query is answered
from the document's own entry; and the guard and the overlay keep step. -/
theorem cache_and_guard (ctx : ServerContext) (st : Session Uri Content Diagnostics Index Pair)
    (reachable : (system ctx).Reachable st) :
    st.crossfile.entries.length ≤ 8 ∧
    (∀ entry ∈ st.crossfile.entries, (st.buffers entry.1).isSome = true ∧
      entry.2.generation = st.project.generation ∧
      st.Published entry.1 entry.2.generation entry.2.index) ∧
    (∃ order, Recency st.crossfile.entries order ∧
      (∀ uri index generation, Recency (st.crossfile.store uri index generation).entries
        (((uri, ⟨index, generation, st.crossfile.clock + 1⟩) :: removeEntry uri order).take 8)) ∧
      ∀ uri index, (st.crossfileFor uri).1 = some index →
        st.Published uri st.project.generation index ∧
        ∃ cached, (uri, cached) ∈ st.crossfile.entries ∧ cached.index = index ∧
          Recency (st.crossfileFor uri).2.crossfile.entries
            ((uri, { cached with used := st.crossfile.clock + 1 }) :: removeEntry uri order)) ∧
    (st.guard.enabled = false → st.project.overlay = none) ∧
    (st.project.overlay.isSome = true → st.guard.enabled = true) ∧
    (st.guard.enabled = true → st.project.overlay = none → st.built = 0) := by
  have all : st.IsTracked ∧ st.CacheSound ∧ st.Lockstep := by
    apply reachable.invariant fun st => st.IsTracked ∧ st.CacheSound ∧ st.Lockstep
    · rintro st ⟨build, rfl⟩
      exact ⟨isTracked_start _ build, cacheSound_of_empty rfl, lockstep_start _ build⟩
    · rintro st event enabled ⟨tracked, sound, lockstep⟩
      exact ⟨isTracked_step ctx st event enabled tracked,
        cacheSound_step ctx event enabled tracked sound, lockstep_step ctx event lockstep⟩
  obtain ⟨-, sound, lockstep⟩ := all
  obtain ⟨order, recency⟩ := st.crossfile.ordered
  refine ⟨st.crossfile.bounded, fun entry mem => ?_, ⟨order, recency, ?_, ?_⟩, lockstep.off, ?_,
    lockstep.empty⟩
  · exact ⟨sound.opened entry mem, sound.current entry mem, sound.published entry mem⟩
  · exact fun uri index generation =>
      CrossFileCache.store_recency recency uri index generation
  · intro uri index hit
    obtain ⟨cached, mem, same, generation, moved⟩ := CrossFileCache.get_of_some hit
    refine ⟨?_, cached, mem, same, moved order recency⟩
    have published := sound.published _ mem
    rw [generation, same] at published
    exact published
  · intro overlay
    by_contra off
    rw [lockstep.off (Bool.eq_false_iff.mpr off)] at overlay
    contradiction

/-- A session that has cached the index of a published result. -/
theorem cache_and_guard_published :
    (step smallContext (.computed 0 (⟨7, some 50, some 3⟩ : Answer Nat Nat))
      (step smallContext (.didOpen 0 10 1)
        (start smallContext.overlayBudget ⟨[([], ())], 50⟩ : Small))).crossfile.entries.length ≤ 8 := by
  have initial : (system smallContext).Reachable
      (start smallContext.overlayBudget ⟨[([], ())], 50⟩ : Small) :=
    .of_initial ⟨⟨[([], ())], 50⟩, rfl⟩
  have opening : (system smallContext).Enabled (.didOpen 0 10 1)
      (start smallContext.overlayBudget ⟨[([], ())], 50⟩ : Small) := trivial
  have delivering : (system smallContext).Enabled (.computed 0 ⟨7, some 50, some 3⟩)
      (step smallContext (.didOpen 0 10 1)
        (start smallContext.overlayBudget ⟨[([], ())], 50⟩ : Small)) :=
    ⟨_, rfl, rfl, fun _ => rfl⟩
  exact (cache_and_guard smallContext _ ((initial.step opening).step delivering)).1

end Session

end Rigor.Cli.Lsp
