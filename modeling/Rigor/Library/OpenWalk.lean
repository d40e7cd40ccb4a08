import Rigor.Library.Grouping
import Mathlib.Data.Fintype.Card
import Mathlib.Data.Set.Finite.List
import Mathlib.Logic.Relation

/-!
# A depth-first walk that stops at a cycle

The walk keeps the nodes it has entered and, apart from them, those it has not left yet.  Meeting
one of the latter is a way back to the start, meeting any other one again is a second way to it.
The walk fails at a broken link, at a node without links, and on a way back.
-/

namespace Rigor.Library.OpenWalk

open Relation

universe u

variable {κ : Type u}

/-- What a node links to before and after itself.  A link without a target is broken. -/
structure Links (κ : Type u) where
  before : List (Option κ)
  after : List (Option κ)

def Links.all (links : Links κ) : List (Option κ) :=
  links.before ++ links.after

section Nodes

variable {graph : κ → Option (Links κ)} {links : List (Option κ)}

/-! ## Nodes without a way back -/

/-- The link leads from the first node to the second. -/
def Edge (graph : κ → Option (Links κ)) (x y : κ) : Prop :=
  ∃ links, graph x = some links ∧ some y ∈ links.all

/-- Below the node no link is broken, and the links come to an end. -/
inductive Good (graph : κ → Option (Links κ)) : κ → Prop where
  | intro {x : κ} {links : Links κ} (found : graph x = some links) (unbroken : none ∉ links.all)
      (below : ∀ y, some y ∈ links.all → Good graph y) : Good graph x

/-- Each link leads to a good node. -/
def AllGood (graph : κ → Option (Links κ)) (links : List (Option κ)) : Prop :=
  ∀ link ∈ links, ∃ y, link = some y ∧ Good graph y

theorem AllGood.append_iff {links' : List (Option κ)} :
    AllGood graph (links ++ links') ↔ AllGood graph links ∧ AllGood graph links' :=
  List.forall_mem_append

theorem AllGood.cons_iff {x : κ} : AllGood graph (some x :: links) ↔ Good graph x ∧ AllGood graph links := by
  rw [AllGood, List.forall_mem_cons]
  simp only [Option.some.injEq, exists_eq_left', AllGood]

theorem not_allGood_none : ¬ AllGood graph (none :: links) := by
  intro good
  rcases good none List.mem_cons_self with ⟨y, impossible, -⟩
  exact nomatch impossible

namespace Good

theorem iff_of_found {x : κ} {links : Links κ} (found : graph x = some links) :
    Good graph x ↔ AllGood graph links.before ∧ AllGood graph links.after := by
  rw [← AllGood.append_iff]
  constructor
  · rintro ⟨found', unbroken, below⟩
    cases found.symm.trans found'
    intro link mem
    cases link with
    | none => exact absurd mem unbroken
    | some y => exact ⟨y, rfl, below y mem⟩
  · intro good
    refine ⟨found, ?_, ?_⟩
    · intro mem
      rcases good none mem with ⟨y, impossible, -⟩
      exact nomatch impossible
    · intro y mem
      rcases good (some y) mem with ⟨z, same, below⟩
      cases same
      exact below

/-- No way leads back to a good node. -/
theorem acyclic {x : κ} (good : Good graph x) : ¬ TransGen (Edge graph) x x := by
  induction good with
  | @intro x links found unbroken below ih =>
      intro cycle
      rcases TransGen.head'_iff.mp cycle with ⟨y, ⟨links', found', mem⟩, back⟩
      cases found.symm.trans found'
      exact ih y mem (.tail' back ⟨links, found, mem⟩)

theorem of_reaches {x y : κ} (good : Good graph x) (reaches : ReflTransGen (Edge graph) x y) :
    Good graph y := by
  induction reaches with
  | refl => exact good
  | tail _ edge ih =>
      rcases edge with ⟨links, found, mem⟩
      rcases ih with ⟨found', -, below⟩
      cases found.symm.trans found'
      exact below _ mem

end Good

/-- In a graph of finitely many nodes the links end if none is broken and none leads back. -/
theorem good_iff {keys : List κ} (whole : ∀ x, (graph x).isSome = true → x ∈ keys) {x : κ} :
    Good graph x ↔ ∀ y, ReflTransGen (Edge graph) x y →
      (∃ links, graph y = some links ∧ none ∉ links.all) ∧ ¬ TransGen (Edge graph) y y := by
  constructor
  · intro good y reaches
    have goodY := good.of_reaches reaches
    have acyclic := goodY.acyclic
    rcases goodY with ⟨found, unbroken, -⟩
    exact ⟨⟨_, found, unbroken⟩, acyclic⟩
  · intro fine
    let Below := { y // ReflTransGen (Edge graph) x y }
    have mem (y : Below) : y.1 ∈ keys := by
      rcases (fine y.1 y.2).1 with ⟨links, found, -⟩
      exact whole y.1 (Option.isSome_iff_exists.mpr ⟨links, found⟩)
    have finite : Finite Below := by
      have subset : { y | ReflTransGen (Edge graph) x y } ⊆ { y | y ∈ keys } := fun y reaches => mem ⟨y, reaches⟩
      exact (keys.finite_toSet.subset subset).to_subtype
    have isTrans : IsTrans Below fun a b => TransGen (Edge graph) b.1 a.1 :=
      ⟨fun a b c first second => second.trans first⟩
    have isIrrefl : Std.Irrefl fun a b : Below => TransGen (Edge graph) b.1 a.1 :=
      ⟨fun a => (fine a.1 a.2).2⟩
    have wf := Finite.wellFounded_of_trans_of_irrefl fun a b : Below => TransGen (Edge graph) b.1 a.1
    have all (y : Below) : Good graph y.1 := by
      induction y using wf.induction with
      | _ y ih =>
          rcases (fine y.1 y.2).1 with ⟨links, found, unbroken⟩
          refine ⟨found, unbroken, fun z declared => ?_⟩
          have edge : Edge graph y.1 z := ⟨links, found, declared⟩
          exact ih ⟨z, y.2.tail edge⟩ (.single edge)
    exact all ⟨x, .refl⟩

end Nodes

/-! ## The walk -/

/-- The nodes in the order of the walk, the ones entered, and the ones not left again. -/
structure Trail (κ : Type u) where
  order : List κ
  seen : List κ
  opened : List κ
  ok : Bool

namespace Trail

def start : Trail κ :=
  ⟨[], [], [], true⟩

def fail (trail : Trail κ) : Trail κ :=
  { trail with ok := false }

def enter (trail : Trail κ) (x : κ) : Trail κ :=
  { trail with seen := x :: trail.seen, opened := x :: trail.opened }

/-- Only a walk that has not failed goes on to the node itself. -/
def push (trail : Trail κ) (x : κ) : Trail κ :=
  if trail.ok then { trail with order := trail.order ++ [x] } else trail

def close [DecidableEq κ] (trail : Trail κ) (x : κ) : Trail κ :=
  { trail with opened := trail.opened.filter (· ≠ x) }

@[simp]
theorem push_seen (trail : Trail κ) (x : κ) : (trail.push x).seen = trail.seen := by
  rw [push]
  split <;> rfl

@[simp]
theorem push_opened (trail : Trail κ) (x : κ) : (trail.push x).opened = trail.opened := by
  rw [push]
  split <;> rfl

@[simp]
theorem push_ok (trail : Trail κ) (x : κ) : (trail.push x).ok = trail.ok := by
  rw [push]
  split <;> rfl

theorem mem_push_order {trail : Trail κ} {x y : κ} (mem : y ∈ (trail.push x).order) :
    y ∈ trail.order ∨ y = x := by
  rw [push] at mem
  split at mem
  · exact (List.mem_append.mp mem).imp id List.mem_singleton.mp
  · exact .inl mem

theorem order_subset_push (trail : Trail κ) (x : κ) : trail.order ⊆ (trail.push x).order := by
  rw [push]
  split
  · exact List.subset_append_left _ _
  · exact List.Subset.refl _

theorem mem_push_of_ok {trail : Trail κ} (x : κ) (ok : trail.ok = true) : x ∈ (trail.push x).order := by
  rw [push, if_pos ok]
  exact List.mem_append_right _ (List.mem_singleton_self x)

end Trail

section Ready

variable {graph : κ → Option (Links κ)} {links : List (Option κ)} {trail : Trail κ}

/-- Closed nodes are good, and open nodes lead to the links ahead. -/
structure Ready (graph : κ → Option (Links κ)) (links : List (Option κ)) (trail : Trail κ) : Prop where
  closed : trail.ok = true → ∀ x ∈ trail.seen, x ∈ trail.opened ∨ Good graph x
  ahead : ∀ x ∈ trail.opened, ∀ y, some y ∈ links → TransGen (Edge graph) x y

namespace Ready

variable {x : κ} {rest : List (Option κ)} {inner : Links κ} {first second : Trail κ}

theorem tail {link : Option κ} (ready : Ready graph (link :: rest) trail) : Ready graph rest trail where
  closed := ready.closed
  ahead y mem z link := ready.ahead y mem z (List.mem_cons_of_mem _ link)

/-- What leads to a node leads to the links of the node. -/
theorem ahead_of_enter {y z : κ} (ready : Ready graph (some x :: rest) trail)
    (found : graph x = some inner) (mem : y ∈ x :: trail.opened) (link : some z ∈ inner.all) :
    TransGen (Edge graph) y z := by
  have edge : Edge graph x z := ⟨inner, found, link⟩
  rcases List.mem_cons.mp mem with rfl | mem
  · exact .single edge
  · exact (ready.ahead y mem x List.mem_cons_self).tail edge

theorem toBefore (ready : Ready graph (some x :: rest) trail) (found : graph x = some inner) :
    Ready graph inner.before (trail.enter x) where
  closed ok y mem := by
    rcases List.mem_cons.mp mem with rfl | mem
    · exact .inl List.mem_cons_self
    · exact (ready.closed ok y mem).imp (List.mem_cons_of_mem _) id
  ahead y mem z link := ready.ahead_of_enter found mem (List.mem_append_left _ link)

theorem toAfter (ready : Ready graph (some x :: rest) trail) (found : graph x = some inner)
    (opened : first.opened = x :: trail.opened)
    (closed : first.ok = true → ∀ y ∈ first.seen, y ∈ first.opened ∨ Good graph y) :
    Ready graph inner.after (first.push x) where
  closed ok y mem := by
    rw [Trail.push_ok] at ok
    rw [Trail.push_seen] at mem
    rw [Trail.push_opened]
    exact closed ok y mem
  ahead y mem z link := by
    rw [Trail.push_opened, opened] at mem
    exact ready.ahead_of_enter found mem (List.mem_append_right _ link)

end Ready

end Ready

/-- The walk along some links, one after the other. -/
inductive Walks [DecidableEq κ] (graph : κ → Option (Links κ)) :
    List (Option κ) → Trail κ → Trail κ → Prop where
  | nil {trail : Trail κ} : Walks graph [] trail trail
  | dead {rest : List (Option κ)} {trail : Trail κ} (failed : trail.ok = false) :
      Walks graph rest trail trail
  | broken {rest : List (Option κ)} {trail : Trail κ} (ok : trail.ok = true) :
      Walks graph (none :: rest) trail trail.fail
  | back {x : κ} {rest : List (Option κ)} {trail : Trail κ} (ok : trail.ok = true)
      (opened : x ∈ trail.opened) : Walks graph (some x :: rest) trail trail.fail
  | missing {x : κ} {rest : List (Option κ)} {trail : Trail κ} (ok : trail.ok = true)
      (left : x ∉ trail.opened) (absent : graph x = none) :
      Walks graph (some x :: rest) trail trail.fail
  | again {x : κ} {rest : List (Option κ)} {links : Links κ} {trail last : Trail κ}
      (ok : trail.ok = true) (left : x ∉ trail.opened) (found : graph x = some links)
      (seen : x ∈ trail.seen) (remaining : Walks graph rest trail last) :
      Walks graph (some x :: rest) trail last
  | enter {x : κ} {rest : List (Option κ)} {links : Links κ} {trail first second last : Trail κ}
      (ok : trail.ok = true) (left : x ∉ trail.opened) (found : graph x = some links)
      (fresh : x ∉ trail.seen) (before : Walks graph links.before (trail.enter x) first)
      (after : Walks graph links.after (first.push x) second)
      (remaining : Walks graph rest (second.close x) last) : Walks graph (some x :: rest) trail last

/-! ## What a walk keeps -/

section Walk

variable [DecidableEq κ] {graph : κ → Option (Links κ)} {links : List (Option κ)} {trail last : Trail κ}

theorem filter_opened {opened : List κ} {x : κ} (left : x ∉ opened) :
    (x :: opened).filter (· ≠ x) = opened := by
  rw [List.filter_cons_of_neg (by simp), List.filter_eq_self]
  intro y mem
  exact decide_eq_true fun same => left (same ▸ mem)

namespace Walks

/-- In the end the same nodes are open as in the beginning. -/
theorem opened_eq (walks : Walks graph links trail last) : last.opened = trail.opened := by
  induction walks with
  | nil | dead | broken | back | missing => rfl
  | again _ _ _ _ _ ih => exact ih
  | @enter x rest inner trail first second last ok left found fresh _ _ _ first' second' last' =>
      calc
        last.opened = second.opened.filter (· ≠ x) := last'
        _ = (x :: trail.opened).filter (· ≠ x) := by
          rw [second', Trail.push_opened, first']
          rfl
        _ = trail.opened := filter_opened left

theorem seen_subset (walks : Walks graph links trail last) : trail.seen ⊆ last.seen := by
  induction walks with
  | nil | dead | broken | back | missing => exact List.Subset.refl _
  | again _ _ _ _ _ ih => exact ih
  | @enter x rest inner trail first second last ok left found fresh _ _ _ first' second' last' =>
      calc
        trail.seen ⊆ x :: trail.seen := List.subset_cons_self _ _
        _ ⊆ first.seen := first'
        _ = (first.push x).seen := (Trail.push_seen _ _).symm
        _ ⊆ second.seen := second'
        _ ⊆ last.seen := last'

theorem order_subset (walks : Walks graph links trail last) : trail.order ⊆ last.order := by
  induction walks with
  | nil | dead | broken | back | missing => exact List.Subset.refl _
  | again _ _ _ _ _ ih => exact ih
  | @enter x rest inner trail first second last ok left found fresh _ _ _ first' second' last' =>
      calc
        trail.order ⊆ first.order := first'
        _ ⊆ (first.push x).order := Trail.order_subset_push _ _
        _ ⊆ second.order := second'
        _ ⊆ last.order := last'

/-- A walk that has failed does not recover. -/
theorem ok_of_ok (walks : Walks graph links trail last) (ok : last.ok = true) : trail.ok = true := by
  induction walks with
  | nil | dead => exact ok
  | broken ok' | back ok' | missing ok' | again ok' | enter ok' => exact ok'

theorem eq_of_failed (walks : Walks graph links trail last) (failed : trail.ok = false) : last = trail := by
  cases walks with
  | nil | dead => rfl
  | broken ok | back ok | missing ok | again ok | enter ok =>
      exact absurd (failed.symm.trans ok) Bool.false_ne_true

theorem append {links' : List (Option κ)} {middle : Trail κ} (walks : Walks graph links trail middle)
    (walks' : Walks graph links' middle last) : Walks graph (links ++ links') trail last := by
  induction walks with
  | nil => exact walks'
  | dead failed =>
      rw [walks'.eq_of_failed failed]
      exact .dead failed
  | broken ok =>
      rw [walks'.eq_of_failed rfl]
      exact .broken ok
  | back ok opened =>
      rw [walks'.eq_of_failed rfl]
      exact .back ok opened
  | missing ok left absent =>
      rw [walks'.eq_of_failed rfl]
      exact .missing ok left absent
  | again ok left found seen _ ih => exact .again ok left found seen (ih walks')
  | enter ok left found fresh before after _ _ _ ih =>
      exact .enter ok left found fresh before after (ih walks')

end Walks

/-- The nodes that the walk has not entered. -/
def unseen (keys : List κ) (trail : Trail κ) : Nat :=
  keys.countP fun key => decide (key ∉ trail.seen)

theorem unseen_le (keys : List κ) (grows : trail.seen ⊆ last.seen) : unseen keys last ≤ unseen keys trail := by
  apply List.countP_mono_left
  intro key _ fresh
  rw [decide_eq_true_eq] at fresh ⊢
  exact fun old => fresh (grows old)

theorem unseen_enter {keys : List κ} {x : κ} (mem : x ∈ keys) (fresh : x ∉ trail.seen) :
    unseen keys (trail.enter x) < unseen keys trail := by
  refine Grouping.countP_lt_countP ?_ mem ?_ ?_
  · intro key _ new
    rw [decide_eq_true_eq] at new ⊢
    exact fun old => new (List.mem_cons_of_mem _ old)
  · exact decide_eq_true fresh
  · rw [decide_eq_true_eq, not_not]
    exact List.mem_cons_self

/-! ## When the walk fails -/

theorem Ready.toRest {x : κ} {rest : List (Option κ)} {second : Trail κ}
    (ready : Ready graph (some x :: rest) trail) (left : x ∉ trail.opened)
    (opened : second.opened = x :: trail.opened)
    (closed : second.ok = true → ∀ y ∈ second.seen, y ∈ second.opened ∨ Good graph y)
    (good : second.ok = true → Good graph x) : Ready graph rest (second.close x) where
  closed ok y mem := by
    rcases closed ok y mem with stillOpen | isGood
    · by_cases same : y = x
      · exact .inr (same ▸ good ok)
      · exact .inl (List.mem_filter.mpr ⟨stillOpen, decide_eq_true same⟩)
    · exact .inr isGood
  ahead y mem z link := by
    rw [Trail.close, opened, filter_opened left] at mem
    exact ready.ahead y mem z (List.mem_cons_of_mem _ link)

/-- The walk gets through exactly where all its links are good. -/
theorem Walks.settles (walks : Walks graph links trail last) (ready : Ready graph links trail) :
    (last.ok = true ↔ trail.ok = true ∧ AllGood graph links) ∧
      (last.ok = true → ∀ x ∈ last.seen, x ∈ last.opened ∨ Good graph x) := by
  induction walks with
  | nil =>
      have none : AllGood graph [] := fun link mem => absurd mem List.not_mem_nil
      exact ⟨(and_iff_left none).symm, ready.closed⟩
  | dead failed =>
      rw [failed]
      exact ⟨iff_of_false Bool.false_ne_true fun holds => Bool.false_ne_true holds.1, nofun⟩
  | broken ok =>
      exact ⟨iff_of_false Bool.false_ne_true fun holds => not_allGood_none holds.2, nofun⟩
  | @back x rest trail ok opened =>
      have bad : ¬ Good graph x := fun good => good.acyclic (ready.ahead x opened x List.mem_cons_self)
      exact ⟨iff_of_false Bool.false_ne_true fun holds => bad (AllGood.cons_iff.mp holds.2).1, nofun⟩
  | @missing x rest trail ok left absent =>
      have bad : ¬ Good graph x := fun ⟨found, _, _⟩ => nomatch absent.symm.trans found
      exact ⟨iff_of_false Bool.false_ne_true fun holds => bad (AllGood.cons_iff.mp holds.2).1, nofun⟩
  | @again x rest inner trail last ok left found seen _ ih =>
      have good : Good graph x := (ready.closed ok x seen).resolve_left left
      rw [AllGood.cons_iff, and_iff_right good]
      exact ih ready.tail
  | @enter x rest inner trail first second last ok left found fresh before after remaining
      first' second' last' =>
      have firstOpened : first.opened = x :: trail.opened := before.opened_eq
      have secondOpened : second.opened = x :: trail.opened := by
        rw [after.opened_eq, Trail.push_opened, firstOpened]
      rcases first' (ready.toBefore found) with ⟨firstOk, firstClosed⟩
      rcases second' (ready.toAfter found firstOpened firstClosed) with ⟨secondOk, secondClosed⟩
      have goes : second.ok = true ↔ Good graph x := by
        rw [secondOk, Trail.push_ok, firstOk, Good.iff_of_found found]
        exact ⟨fun holds => ⟨holds.1.2, holds.2⟩, fun holds => ⟨⟨ok, holds.1⟩, holds.2⟩⟩
      rcases last' (ready.toRest left secondOpened secondClosed goes.mp) with ⟨lastOk, lastClosed⟩
      have closeOk : (second.close x).ok = second.ok := rfl
      rw [lastOk, closeOk, goes, AllGood.cons_iff, and_iff_right ok]
      exact ⟨Iff.rfl, fun holds => lastClosed (lastOk.mpr (by rwa [closeOk, goes]))⟩

/-! ## What the walk has pushed -/

/-- The nodes pushed are among the ones entered, and with those still open they are all of them. -/
structure Kept (graph : κ → Option (Links κ)) (trail : Trail κ) : Prop where
  nodup : trail.order.Nodup
  pushed : trail.order ⊆ trail.seen
  opened : trail.opened ⊆ trail.seen
  whole : trail.ok = true → ∀ x ∈ trail.seen, x ∈ trail.order ∨ x ∈ trail.opened
  closed : trail.ok = true → ∀ x ∈ trail.seen, x ∈ trail.opened ∨ ∀ y, Edge graph x y → y ∈ trail.seen

namespace Kept

variable {x : κ} {inner : Links κ} {first second : Trail κ}

omit [DecidableEq κ] in
theorem fail (kept : Kept graph trail) : Kept graph trail.fail where
  nodup := kept.nodup
  pushed := kept.pushed
  opened := kept.opened
  whole := nofun
  closed := nofun

omit [DecidableEq κ] in
theorem enter (kept : Kept graph trail) (x : κ) : Kept graph (trail.enter x) where
  nodup := kept.nodup
  pushed _ mem := List.mem_cons_of_mem _ (kept.pushed mem)
  opened _ mem := List.cons_subset_cons x kept.opened mem
  whole ok y mem := by
    rcases List.mem_cons.mp mem with rfl | mem
    · exact .inr List.mem_cons_self
    · exact (kept.whole ok y mem).imp id (List.mem_cons_of_mem _)
  closed ok y mem := by
    rcases List.mem_cons.mp mem with rfl | mem
    · exact .inl List.mem_cons_self
    · exact (kept.closed ok y mem).imp (List.mem_cons_of_mem _)
        fun inside z edge => List.mem_cons_of_mem _ (inside z edge)

omit [DecidableEq κ] in
theorem push (kept : Kept graph first) (fresh : x ∉ first.order) (seen : x ∈ first.seen) :
    Kept graph (first.push x) := by
  cases ok : first.ok with
  | false =>
      rw [Trail.push, ok]
      exact kept
  | true =>
      rw [Trail.push, ok, if_pos rfl]
      constructor
      · exact List.Nodup.append kept.nodup (List.nodup_singleton x) (by simpa using fresh)
      · exact List.append_subset.mpr ⟨kept.pushed, fun y mem => List.mem_singleton.mp mem ▸ seen⟩
      · exact kept.opened
      · exact fun _ y mem => (kept.whole ok y mem).imp (List.mem_append_left _) id
      · exact fun _ => kept.closed ok

theorem close (kept : Kept graph second) (found : graph x = some inner)
    (pushed : second.ok = true → x ∈ second.order)
    (linked : second.ok = true → ∀ y, some y ∈ inner.all → y ∈ second.seen) :
    Kept graph (second.close x) where
  nodup := kept.nodup
  pushed := kept.pushed
  opened _ mem := kept.opened (List.mem_filter.mp mem).1
  whole ok y mem := by
    rcases kept.whole ok y mem with inOrder | stillOpen
    · exact .inl inOrder
    · by_cases same : y = x
      · exact .inl (same ▸ pushed ok)
      · exact .inr (List.mem_filter.mpr ⟨stillOpen, decide_eq_true same⟩)
  closed ok y mem := by
    rcases kept.closed ok y mem with stillOpen | inside
    · by_cases same : y = x
      · right
        rintro z ⟨links, found', declared⟩
        rw [same] at found'
        cases found.symm.trans found'
        exact linked ok z declared
      · exact .inl (List.mem_filter.mpr ⟨stillOpen, decide_eq_true same⟩)
    · exact .inr inside

end Kept

/-- The walk pushes nodes that it had not entered, and enters every link. -/
structure Pushes (graph : κ → Option (Links κ)) (links : List (Option κ)) (trail last : Trail κ) : Prop where
  kept : Kept graph last
  fresh : ∀ x ∈ last.order, x ∈ trail.order ∨ x ∉ trail.seen
  linked : last.ok = true → ∀ x, some x ∈ links → x ∈ last.seen

omit [DecidableEq κ] in
theorem Pushes.fail (kept : Kept graph trail) : Pushes graph links trail trail.fail where
  kept := kept.fail
  fresh _ mem := .inl mem
  linked := nofun

theorem Walks.pushes (walks : Walks graph links trail last) (kept : Kept graph trail) :
    Pushes graph links trail last := by
  induction walks with
  | nil => exact ⟨kept, fun _ mem => .inl mem, nofun⟩
  | dead failed =>
      exact ⟨kept, fun _ mem => .inl mem, fun ok => absurd (failed.symm.trans ok) Bool.false_ne_true⟩
  | broken | back | missing => exact .fail kept
  | @again x rest inner trail last ok left found seen remaining ih =>
      rcases ih kept with ⟨lastKept, fresh, linked⟩
      refine ⟨lastKept, fresh, fun lastOk y mem => ?_⟩
      rcases List.mem_cons.mp mem with same | mem
      · cases same
        exact remaining.seen_subset seen
      · exact linked lastOk y mem
  | @enter x rest inner trail first second last ok left found fresh before after remaining
      first' second' last' =>
      rcases first' (kept.enter x) with ⟨firstKept, firstFresh, firstLinked⟩
      have entered : x ∈ first.seen := before.seen_subset List.mem_cons_self
      have unpushed : x ∉ first.order := by
        intro mem
        rcases firstFresh x mem with old | new
        · exact fresh (kept.pushed old)
        · exact new List.mem_cons_self
      rcases second' (firstKept.push unpushed entered) with ⟨secondKept, secondFresh, secondLinked⟩
      have later : first.seen ⊆ second.seen := by
        have grows := after.seen_subset
        rwa [Trail.push_seen] at grows
      have firstOk (secondOk : second.ok = true) : first.ok = true := by
        have pushOk := after.ok_of_ok secondOk
        rwa [Trail.push_ok] at pushOk
      have inOrder (secondOk : second.ok = true) : x ∈ second.order :=
        after.order_subset (Trail.mem_push_of_ok x (firstOk secondOk))
      have inside (secondOk : second.ok = true) (y : κ) (declared : some y ∈ inner.all) :
          y ∈ second.seen := by
        rcases List.mem_append.mp declared with inBefore | inAfter
        · exact later (firstLinked (firstOk secondOk) y inBefore)
        · exact secondLinked secondOk y inAfter
      rcases last' (secondKept.close found inOrder inside) with ⟨lastKept, lastFresh, lastLinked⟩
      refine ⟨lastKept, ?_, ?_⟩
      · intro y mem
        rcases lastFresh y mem with inSecond | unseen
        · rcases secondFresh y inSecond with inPush | unseen
          · rcases Trail.mem_push_order inPush with inFirst | rfl
            · exact (firstFresh y inFirst).imp id fun new old => new (List.mem_cons_of_mem _ old)
            · exact .inr fresh
          · rw [Trail.push_seen] at unseen
            exact .inr fun old => unseen (before.seen_subset (List.mem_cons_of_mem _ old))
        · exact .inr fun old => unseen (later (before.seen_subset (List.mem_cons_of_mem _ old)))
      · intro lastOk y mem
        rcases List.mem_cons.mp mem with same | mem
        · cases same
          exact remaining.seen_subset (later entered)
        · exact lastLinked lastOk y mem

/-- What holds of the links and goes along the edges holds of every node entered. -/
theorem Walks.seen_of_closed {P : κ → Prop} (step : ∀ x y, P x → Edge graph x y → P y)
    (walks : Walks graph links trail last) (linked : ∀ x, some x ∈ links → P x)
    (seen : ∀ x ∈ trail.seen, P x) : ∀ x ∈ last.seen, P x := by
  induction walks with
  | nil | dead | broken | back | missing => exact seen
  | again _ _ _ _ _ ih => exact ih (fun y mem => linked y (List.mem_cons_of_mem _ mem)) seen
  | @enter x rest inner trail first second last ok left found fresh _ _ _ first' second' last' =>
      have here : P x := linked x List.mem_cons_self
      have below (y : κ) (declared : some y ∈ inner.all) : P y := step x y here ⟨inner, found, declared⟩
      have firstSeen := first' (fun y mem => below y (List.mem_append_left _ mem))
        (List.forall_mem_cons.mpr ⟨here, seen⟩)
      have secondSeen := second' (fun y mem => below y (List.mem_append_right _ mem))
        (by rwa [Trail.push_seen])
      exact last' (fun y mem => linked y (List.mem_cons_of_mem _ mem)) secondSeen

/-- The walk from one node. -/
theorem Walks.from_start {x : κ} (walks : Walks graph [some x] .start last) :
    (last.ok = true ↔ Good graph x) ∧ last.order.Nodup ∧
      (∀ y ∈ last.order, ReflTransGen (Edge graph) x y) ∧
      (last.ok = true → ∀ y, ReflTransGen (Edge graph) x y → y ∈ last.order) := by
  have ready : Ready graph [some x] (.start : Trail κ) := ⟨fun _ => nofun, nofun⟩
  have keptStart : Kept graph (.start : Trail κ) := ⟨.nil, nofun, nofun, fun _ => nofun, fun _ => nofun⟩
  rcases walks.pushes keptStart with ⟨kept, -, linked⟩
  have opened : last.opened = [] := walks.opened_eq
  refine ⟨?_, kept.nodup, ?_, ?_⟩
  · rw [(walks.settles ready).1, AllGood.cons_iff]
    have none : AllGood graph [] := fun link mem => absurd mem List.not_mem_nil
    exact ⟨fun holds => holds.2.1, fun good => ⟨rfl, good, none⟩⟩
  · intro y mem
    refine walks.seen_of_closed (P := fun y => ReflTransGen (Edge graph) x y)
      (fun _ _ reaches edge => reaches.tail edge) ?_ nofun y (kept.pushed mem)
    intro z link
    cases List.mem_singleton.mp link
    exact .refl
  · intro ok y reaches
    have seen : y ∈ last.seen := by
      induction reaches with
      | refl => exact linked ok x List.mem_cons_self
      | tail _ edge ih => exact (kept.closed ok _ ih).resolve_left (by simp [opened]) _ edge
    exact (kept.whole ok y seen).resolve_right (by simp [opened])

end Walk

end Rigor.Library.OpenWalk
