import Mathlib.Data.List.Nodup
import Mathlib.Logic.Function.Basic

/-!
# Cells settled one after the other

A cell has a path of cells and is settled with what the first of them offers that offers
anything.  A settled cell may offer something that it did not offer before, so the outcome
can depend on the order.  The main result says when it does not.
-/

namespace Rigor.Library.Cells

universe u v w

variable {κ : Type u} {α : Type v} {β : Type w}

/-- Cells with their paths, what each offers before it is settled, how it is settled with a
found offer, and what it offers then. -/
structure System (κ : Type u) (α : Type v) (β : Type w) where
  path : κ → List κ
  base : κ → Option α
  outcome : κ → Option α → β
  offered : β → Option α

namespace System

variable (system : System κ α β)

/-- What a cell offers where some cells are settled. -/
def offer (settled : κ → Option β) (cell : κ) : Option α :=
  (settled cell).elim (system.base cell) system.offered

def settle [DecidableEq κ] (settled : κ → Option β) (cell : κ) : κ → Option β :=
  Function.update settled cell
    (some (system.outcome cell ((system.path cell).findSome? (system.offer settled))))

def run [DecidableEq κ] (order : List κ) : κ → Option β :=
  order.foldl system.settle fun _ => none

/-- The outcome of a cell that is settled before all others. -/
def alone (cell : κ) : β :=
  system.outcome cell ((system.path cell).findSome? system.base)

/-- The path of a cell comes to another one before any offer. -/
def Passes (cell other : κ) : Prop :=
  ∃ front back, system.path cell = front ++ other :: back ∧
    ∀ nearer ∈ front, system.base nearer = none

/-- Where a cell passes another one, the other's own outcome serves it as well as the offer
that it finds without it. -/
def Harmless (order : List κ) : Prop :=
  ∀ cell ∈ order, ∀ other ∈ order, other ≠ cell → system.Passes cell other →
    ∀ found, system.offered (system.alone other) = some found →
      system.outcome cell (some found) = system.alone cell

variable {system} {order : List κ}

theorem offer_of_none {settled : κ → Option β} {cell : κ} (fresh : settled cell = none) :
    system.offer settled cell = system.base cell := by
  rw [offer, fresh, Option.elim_none]

theorem offer_of_some {settled : κ → Option β} {cell : κ} {outcome : β}
    (done : settled cell = some outcome) :
    system.offer settled cell = system.offered outcome := by
  rw [offer, done, Option.elim_some]

/-- On the way along a path an offer is the one of the start, or a settled cell is passed
that did not offer then. -/
theorem findSome?_offer {settled : κ → Option β} (path : List κ)
    (silent : ∀ cell outcome, settled cell = some outcome → system.base cell = none) :
    path.findSome? (system.offer settled) = path.findSome? system.base ∨
      ∃ front other back outcome found, path = front ++ other :: back ∧
        (∀ nearer ∈ front, system.base nearer = none) ∧ settled other = some outcome ∧
        system.offered outcome = some found ∧
        path.findSome? (system.offer settled) = some found := by
  induction path with
  | nil => exact .inl rfl
  | cons cell path ih =>
      rw [List.findSome?_cons, List.findSome?_cons]
      rcases done : settled cell with _ | outcome
      · rw [offer_of_none done]
        rcases base : system.base cell with _ | found
        · rcases ih with same | ⟨front, other, back, outcome, found, rfl, none, rest⟩
          · exact .inl same
          · refine .inr ⟨cell :: front, other, back, outcome, found, rfl, ?_, rest⟩
            exact fun nearer mem => (List.mem_cons.mp mem).elim (fun same => same ▸ base) (none nearer)
        · exact .inl rfl
      · rw [offer_of_some done, silent cell outcome done]
        rcases offered : system.offered outcome with _ | found
        · rcases ih with same | ⟨front, other, back, outcome, found, rfl, none, rest⟩
          · exact .inl same
          · refine .inr ⟨cell :: front, other, back, outcome, found, rfl, ?_, rest⟩
            exact fun nearer mem => (List.mem_cons.mp mem).elim
              (fun same => same ▸ silent _ _ done) (none nearer)
        · exact .inr ⟨[], cell, path, outcome, found, rfl, by simp, done, offered, rfl⟩

/-- A settled cell that offers something is found where nothing before it offers. -/
theorem findSome?_offer_of_passes {settled : κ → Option β} {cell other : κ} {outcome : β} {found : α}
    (passes : system.Passes cell other) (done : settled other = some outcome)
    (offered : system.offered outcome = some found)
    (only : ∀ cell outcome, settled cell = some outcome → cell = other) :
    (system.path cell).findSome? (system.offer settled) = some found := by
  obtain ⟨front, back, split, none⟩ := passes
  rw [split, List.findSome?_append, List.findSome?_cons, offer_of_some done, offered]
  rcases early : front.findSome? (system.offer settled) with _ | found'
  · rfl
  · obtain ⟨nearer, mem, offers⟩ := List.exists_of_findSome?_eq_some early
    rcases doneNearer : settled nearer with _ | outcome'
    · rw [offer_of_none doneNearer, none nearer mem] at offers
      simp at offers
    · obtain rfl := only nearer outcome' doneNearer
      rw [offer_of_some done, offered] at offers
      rw [offers, Option.some_or]

section Runs

variable [DecidableEq κ]

/-- Settled cells have the outcomes they have alone, the others are untouched. -/
def Settled (system : System κ α β) (done : List κ) (settled : κ → Option β) : Prop :=
  ∀ cell, settled cell = if cell ∈ done then some (system.alone cell) else none

theorem Settled.settle {done : List κ} {settled : κ → Option β}
    (holds : system.Settled done settled) (within : done ⊆ order)
    (silent : ∀ cell ∈ order, system.base cell = none) (harmless : system.Harmless order)
    {cell : κ} (mem : cell ∈ order) (fresh : cell ∉ done) :
    system.Settled (cell :: done) (system.settle settled cell) := by
  have isDone (other : κ) (outcome : β) (settles : settled other = some outcome) :
      other ∈ done ∧ outcome = system.alone other := by
    rw [holds other] at settles
    split at settles
    · exact ⟨‹_›, (Option.some.inj settles).symm⟩
    · simp at settles
  have same : system.outcome cell ((system.path cell).findSome? (system.offer settled)) =
      system.alone cell := by
    rcases findSome?_offer (system.path cell)
      (fun other outcome settles => silent other (within (isDone other outcome settles).1)) with
      found | ⟨front, other, back, outcome, found, split, none, settles, offered, finds⟩
    · rw [found, alone]
    · obtain ⟨otherDone, rfl⟩ := isDone other outcome settles
      rw [finds]
      apply harmless cell mem other (within otherDone) _ ⟨front, back, split, none⟩ found offered
      exact fun equal => fresh (equal ▸ otherDone)
  intro other
  by_cases equal : other = cell
  · subst equal
    simp [System.settle, same]
  · simp [System.settle, equal, holds other]

theorem Settled.foldl {done rest : List κ} {settled : κ → Option β}
    (holds : system.Settled done settled) (within : done ++ rest ⊆ order)
    (silent : ∀ cell ∈ order, system.base cell = none) (harmless : system.Harmless order)
    (distinct : (done ++ rest).Nodup) :
    system.Settled (rest.reverse ++ done) (rest.foldl system.settle settled) := by
  induction rest generalizing done settled with
  | nil => exact holds
  | cons cell rest ih =>
      have fresh : cell ∉ done := fun mem =>
        (List.nodup_append.mp distinct).2.2 cell mem cell List.mem_cons_self rfl
      rw [List.reverse_cons, List.append_assoc, List.singleton_append]
      apply ih (holds.settle (fun _ mem => within (List.mem_append_left _ mem)) silent harmless
        (within (by simp)) fresh)
      · intro other mem
        apply within
        simp only [List.cons_append, List.mem_cons, List.mem_append] at mem ⊢
        tauto
      · exact List.perm_middle.nodup_iff.mp distinct

/-- Where the cells are harmless every one settles as it does alone. -/
theorem run_eq_alone (silent : ∀ cell ∈ order, system.base cell = none)
    (harmless : system.Harmless order) (distinct : order.Nodup) (cell : κ) :
    system.run order cell = if cell ∈ order then some (system.alone cell) else none := by
  have start : system.Settled [] fun _ => none := fun _ => by simp
  have ran : system.Settled (order.reverse ++ []) (system.run order) :=
    start.foldl (fun _ mem => mem) silent harmless distinct
  simpa using ran cell

theorem foldl_settle_of_not_mem {rest : List κ} {settled : κ → Option β} {cell : κ}
    (untouched : cell ∉ rest) : rest.foldl system.settle settled cell = settled cell := by
  induction rest generalizing settled with
  | nil => rfl
  | cons other rest ih =>
      obtain ⟨differs, untouched⟩ := not_or.mp (fun mem => untouched (List.mem_cons.mpr mem))
      rw [List.foldl_cons, ih untouched, settle, Function.update_of_ne differs]

theorem foldl_settle_eq_none_iff {rest : List κ} {settled : κ → Option β} {cell : κ} :
    rest.foldl system.settle settled cell = none ↔ settled cell = none ∧ cell ∉ rest := by
  induction rest generalizing settled with
  | nil => simp
  | cons other rest ih =>
      rw [List.foldl_cons, ih]
      by_cases equal : cell = other
      · simp [settle, equal]
      · simp [settle, equal]

theorem run_eq_none_iff {cell : κ} : system.run order cell = none ↔ cell ∉ order := by
  rw [run, foldl_settle_eq_none_iff]
  exact and_iff_right rfl

theorem settle_none (cell : κ) :
    system.settle (fun _ => none) cell = Function.update (fun _ => none) cell
      (some (system.alone cell)) := by
  rw [settle, alone]
  rfl

/-- The outcome of the second cell, which no later one changes. -/
theorem run_cons_cons (system : System κ α β) {cell other : κ} {rest : List κ}
    (distinct : (other :: cell :: rest).Nodup) :
    system.run (other :: cell :: rest) cell =
      some (system.outcome cell ((system.path cell).findSome?
        (system.offer (system.settle (fun _ => none) other)))) := by
  have untouched : cell ∉ rest := (List.nodup_cons.mp (List.nodup_cons.mp distinct).2).1
  rw [run, List.foldl_cons, List.foldl_cons, foldl_settle_of_not_mem untouched]
  exact Function.update_self ..

theorem run_cons (system : System κ α β) {cell : κ} {rest : List κ}
    (distinct : (cell :: rest).Nodup) :
    system.run (cell :: rest) cell = some (system.alone cell) := by
  rw [run, List.foldl_cons, foldl_settle_of_not_mem (List.nodup_cons.mp distinct).1, settle_none]
  exact Function.update_self ..

/-- The order makes no difference exactly where the cells are harmless. -/
theorem run_perm_iff (silent : ∀ cell ∈ order, system.base cell = none) (distinct : order.Nodup) :
    (∀ others, others.Perm order → system.run others = system.run order) ↔
      system.Harmless order := by
  constructor
  · intro same cell mem other memOther differs passes found offered
    obtain ⟨front, back, rfl⟩ := List.append_of_mem mem
    have memRest : other ∈ front ++ back := by
      simpa [differs] using memOther
    have swapped : (cell :: other :: (front ++ back).erase other).Perm (front ++ cell :: back) :=
      ((List.perm_cons_erase memRest).symm.cons cell).trans List.perm_middle.symm
    have swapped' := (List.Perm.swap cell other _).trans swapped
    have firstOf := run_cons system (swapped.nodup_iff.mpr distinct)
    have secondOf := run_cons_cons system (swapped'.nodup_iff.mpr distinct)
    rw [same _ swapped, ← same _ swapped', secondOf, Option.some.injEq] at firstOf
    rw [← firstOf, findSome?_offer_of_passes passes _ offered]
    · intro nearer outcome done
      by_contra different
      simp [settle_none, different] at done
    · rw [settle_none, Function.update_self]
  · intro harmless others perm
    funext cell
    have harmless' : system.Harmless others := fun cell mem other memOther =>
      harmless cell (perm.subset mem) other (perm.subset memOther)
    rw [run_eq_alone silent harmless distinct, run_eq_alone
      (fun cell mem => silent cell (perm.subset mem)) harmless' (perm.nodup_iff.mpr distinct)]
    simp only [perm.mem_iff]

end Runs

end System

end Rigor.Library.Cells
