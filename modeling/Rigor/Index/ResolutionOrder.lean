import Rigor.Index.Absence
import Rigor.Library.MixinWalk

/-!
# The order of the ancestors

The chain of a class against Ruby's method resolution order.  The walk keeps to it up to a second
mixin of one class, which Ruby places ahead of the first, and up to a module that the table gives a
superclass, which Ruby does not visit from there.
-/

namespace Rigor.Index.CoreData

open Library.Mixins

universe u

variable {Def : Type u}

/-- What the table says a class or module is built on. -/
def parts? (data : CoreData Def) (name : Text) : Option (Library.Mixins.Parts Text) :=
  (data.entry? name).map fun entry => ⟨entry.prepends, entry.includes, entry.superclass⟩

/-- Ruby's order of the ancestors of a class. -/
def ResolutionOrder (data : CoreData Def) (className : Text) (order : List Text) : Prop :=
  Orders data.parts? .cls [className] order

/-- No reference leads back, everything referred to is loaded, and the modules are apart from the
superclasses. -/
structure WellFormed (data : CoreData Def) : Prop where
  acyclic : ∀ name, ¬ Relation.TransGen data.Edge name name
  loaded : ∀ name ancestor, data.Edge name ancestor → (data.entry? ancestor).isSome = true
  apart : ∀ name, Mixin data.parts? name → ¬ Inherited data.parts? name

/-- One path leads from the class to each module. -/
def SinglePaths (data : CoreData Def) (className : Text) : Prop :=
  ∀ name, Mixin data.parts? name → ∀ turns turns', Path data.parts? .cls className turns name →
    Path data.parts? .cls className turns' name → turns = turns'

/-- The chain is Ruby's order, and holds each name once. -/
def FollowsResolutionOrder (data : CoreData Def) (className : Text) : Prop :=
  ∃ order complete, data.ResolutionOrder className order ∧ order.Nodup ∧
    data.ancestors className = some (order, complete)

/-! ## The walk -/

theorem edge_iff (data : CoreData Def) (name ancestor : Text) :
    Library.Mixins.Edge data.parts? name ancestor ↔ data.Edge name ancestor := by
  constructor
  · rintro ⟨parts, found, mem⟩
    rcases Option.map_eq_some_iff.mp found with ⟨entry, loaded, rfl⟩
    exact ⟨entry, loaded, mem⟩
  · rintro ⟨entry, found, mem⟩
    exact ⟨⟨entry.prepends, entry.includes, entry.superclass⟩, by rw [parts?, found]; rfl, mem⟩

def trail (walk : Walk) : Trail Text :=
  ⟨walk.order, walk.seen⟩

/-- The walks from some names, one behind the other. -/
theorem foldlM_visits {data : CoreData Def} {fuel : Nat}
    (visits : ∀ {name : Text} {walk after : Walk}, (data.entry? name).isSome = true →
      data.collect fuel name walk = some after → Visits data.parts? [name] (trail walk) (trail after))
    {names : List Text} {walk after : Walk}
    (loaded : ∀ name ∈ names, (data.entry? name).isSome = true)
    (folded : names.foldlM (fun walk name => data.collect fuel name walk) walk = some after) :
    Visits data.parts? names (trail walk) (trail after) := by
  induction names generalizing walk with
  | nil =>
      cases folded
      exact .nil
  | cons name names ih =>
      rw [List.forall_mem_cons] at loaded
      rw [List.foldlM_cons] at folded
      rcases Option.bind_eq_some_iff.mp folded with ⟨middle, first, second⟩
      exact (visits loaded.1 first).append (ih loaded.2 second)

/-- Where everything is loaded, the walk is the depth-first walk over the parts. -/
theorem collect_visits (data : CoreData Def) (wf : data.WellFormed) {fuel : Nat} {name : Text}
    {walk after : Walk} (loaded : (data.entry? name).isSome = true)
    (collected : data.collect fuel name walk = some after) :
    Visits data.parts? [name] (trail walk) (trail after) := by
  induction fuel generalizing name walk after with
  | zero => contradiction
  | succ fuel ih =>
      rcases Option.isSome_iff_exists.mp loaded with ⟨entry, found⟩
      have edges : ∀ other ∈ edges entry, (data.entry? other).isSome = true := fun other mem =>
        wf.loaded name other ⟨entry, found, mem⟩
      have parts : data.parts? name = some ⟨entry.prepends, entry.includes, entry.superclass⟩ := by
        rw [parts?, found]
        rfl
      simp only [collect, found] at collected
      by_cases seen : name ∈ walk.seen
      · rw [if_pos seen] at collected
        cases collected
        exact .skip seen .nil
      · rw [if_neg seen] at collected
        rcases Option.bind_eq_some_iff.mp collected with ⟨first, prepended, collected⟩
        rcases Option.bind_eq_some_iff.mp collected with ⟨second, included, inherited⟩
        have visitsPrepended := foldlM_visits ih
          (fun other mem => edges other (by simp [CoreData.edges, mem])) prepended
        have visitsIncluded := foldlM_visits ih
          (fun other mem => edges other (by simp [CoreData.edges, mem])) included
        have visitsInherited : Visits data.parts? entry.superclass.toList (trail second)
            (trail after) := by
          cases sup : entry.superclass with
          | none =>
              rw [sup] at inherited
              cases inherited
              exact .nil
          | some sup' =>
              rw [sup] at inherited
              exact ih (edges sup' (by simp [CoreData.edges, sup])) inherited
        exact .enter parts seen visitsPrepended visitsIncluded visitsInherited .nil

/-! ## The order of a class -/

namespace WellFormed

variable {data : CoreData Def}

theorem sorted (wf : data.WellFormed) : Sorted data.parts? where
  acyclic name loop := wf.acyclic name
    (Relation.TransGen.mono (fun x y edge => (data.edge_iff x y).mp edge) name name loop)
  apart := wf.apart

theorem acc (wf : data.WellFormed) (name : Text) :
    Acc (flip (Library.Mixins.Edge data.parts?)) name := by
  have keys : ∀ x, (data.parts? x).isSome = true → x ∈ data.classes.map Prod.fst := by
    intro x found
    rw [parts?, Option.isSome_map, entry?] at found
    by_contra absent
    have missing : data.classes.lookup x = none := by
      rw [List.lookup_eq_none_iff]
      intro pair mem
      rw [bne_iff_ne]
      rintro rfl
      exact absent (List.mem_map_of_mem mem)
    rw [missing] at found
    contradiction
  exact acc_of_acyclic keys wf.sorted.acyclic name

/-- A class has one order. -/
theorem existsUnique_order (wf : data.WellFormed) {className : Text}
    (loaded : (data.entry? className).isSome = true) :
    ∃! order, data.ResolutionOrder className order := by
  have allLoaded : ∀ x y, Library.Mixins.Edge data.parts? x y → (data.parts? y).isSome = true := by
    intro x y edge
    rw [parts?, Option.isSome_map]
    exact wf.loaded x y ((data.edge_iff x y).mp edge)
  have here : (data.parts? className).isSome = true := by
    rw [parts?, Option.isSome_map]
    exact loaded
  rcases Orders.exists_single allLoaded (wf.acc className) here .cls with ⟨order, orders⟩
  exact ⟨order, orders, fun order' orders' => Orders.unique orders' orders⟩

theorem nodup (wf : data.WellFormed) {className : Text} (single : data.SinglePaths className)
    {order : List Text} (orders : data.ResolutionOrder className order) : order.Nodup := by
  apply Orders.nodup orders
  · intro name mem
    cases List.mem_singleton.mp mem
    exact .of_mixins wf.sorted.acyclic single
  · exact List.pairwise_singleton _ _

end WellFormed

theorem mem_classes {data : CoreData Def} {name : Text} {entry : ClassEntry Def}
    (found : data.entry? name = some entry) : (name, entry) ∈ data.classes :=
  Library.Grouping.mem_of_lookup found

/-- A table whose entries refer to later ones only. -/
theorem wellFormed_of_later (data : CoreData Def)
    (later : ∀ pair ∈ data.classes, ∀ name ∈ edges pair.2, (data.entry? name).isSome = true ∧
      (data.classes.map Prod.fst).idxOf pair.1 < (data.classes.map Prod.fst).idxOf name)
    (apart : ∀ pair ∈ data.classes, ∀ name ∈ pair.2.prepends ++ pair.2.includes,
      ∀ pair' ∈ data.classes, pair'.2.superclass ≠ some name) : data.WellFormed := by
  constructor
  · intro name loop
    have grows : ∀ {other}, Relation.TransGen data.Edge name other →
        (data.classes.map Prod.fst).idxOf name < (data.classes.map Prod.fst).idxOf other := by
      intro other path
      induction path with
      | single edge =>
          rcases edge with ⟨entry, found, mem⟩
          exact (later _ (mem_classes found) _ mem).2
      | tail _ edge ih =>
          rcases edge with ⟨entry, found, mem⟩
          exact ih.trans (later _ (mem_classes found) _ mem).2
    exact Nat.lt_irrefl _ (grows loop)
  · rintro name ancestor ⟨entry, found, mem⟩
    exact (later _ (mem_classes found) _ mem).1
  · rintro name ⟨other, parts, found, mem⟩ ⟨other', parts', found', inherited⟩
    rcases Option.map_eq_some_iff.mp found with ⟨entry, loaded, rfl⟩
    rcases Option.map_eq_some_iff.mp found' with ⟨entry', loaded', rfl⟩
    exact apart _ (mem_classes loaded) _ mem _ (mem_classes loaded') inherited

/-! ## Two modules in one class -/

def bare : ClassEntry Unit where
  methods := []
  attrMethods := []
  aliases := []
  superclass := none
  includes := []
  prepends := []
  instanceUnbuildable := false

/-- A class that includes `A`, then `B`. -/
def twoMixins : CoreData Unit :=
  ⟨[(['C'], { bare with includes := [['A'], ['B']] }), (['A'], bare), (['B'], bare)]⟩

/-- A class that includes `A`, in a table that gives both the superclass `O`. -/
def oneMixin : CoreData Unit :=
  ⟨[(['C'], { bare with includes := [['A']], superclass := some ['O'] }),
    (['A'], { bare with superclass := some ['O'] }), (['O'], bare)]⟩

theorem twoMixins_wellFormed : twoMixins.WellFormed :=
  wellFormed_of_later twoMixins (by decide) (by decide)

theorem oneMixin_wellFormed : oneMixin.WellFormed :=
  wellFormed_of_later oneMixin (by decide) (by decide)

/-- A path goes no further than what the table declares. -/
theorem turns_of_leaf {table : Text → Option (Library.Mixins.Parts Text)} {kind : Kind} {x y : Text}
    {turns : List Turn} {sup : Option Text} (path : Path table kind x turns y)
    (found : table x = some ⟨[], [], sup⟩) (last : kind = .cls → sup = none) : turns = [] ∧ x = y := by
  cases path with
  | here => exact ⟨rfl, rfl⟩
  | prepended found' declared path =>
      cases found.symm.trans found'
      contradiction
  | included found' declared path =>
      cases found.symm.trans found'
      contradiction
  | inherited found' declared path =>
      cases found.symm.trans found'
      cases last rfl
      contradiction

theorem twoMixins_singlePaths : twoMixins.SinglePaths ['C'] := by
  have turns_eq : ∀ y turns, Path twoMixins.parts? .cls ['C'] turns y →
      turns = [] ∧ y = ['C'] ∨ turns = [.included 0] ∧ y = ['A'] ∨ turns = [.included 1] ∧ y = ['B'] := by
    intro y turns path
    have found : twoMixins.parts? ['C'] = some ⟨[], [['A'], ['B']], none⟩ := rfl
    cases path with
    | here => exact .inl ⟨rfl, rfl⟩
    | prepended found' declared path =>
        cases found.symm.trans found'
        contradiction
    | @included _ _ _ _ _ position _ found' declared path =>
        cases found.symm.trans found'
        match position with
        | 0 =>
            cases declared
            rcases turns_of_leaf path rfl nofun with ⟨rfl, rfl⟩
            exact .inr (.inl ⟨rfl, rfl⟩)
        | 1 =>
            cases declared
            rcases turns_of_leaf path rfl nofun with ⟨rfl, rfl⟩
            exact .inr (.inr ⟨rfl, rfl⟩)
    | inherited found' declared path =>
        cases found.symm.trans found'
        contradiction
  intro y _ turns turns' path path'
  rcases turns_eq y turns path with ⟨rfl, rfl⟩ | ⟨rfl, rfl⟩ | ⟨rfl, rfl⟩ <;>
    simpa [eq_comm] using turns_eq _ turns' path'

theorem twoMixins_order : twoMixins.ResolutionOrder ['C'] [['C'], ['B'], ['A']] := by
  have ofA : Orders twoMixins.parts? .mod [['A']] [['A']] :=
    Orders.single_iff.mpr ⟨⟨[], [], none⟩, [], [], [], rfl, .nil, .nil, .nil, rfl⟩
  have ofB : Orders twoMixins.parts? .mod [['B']] [['B']] :=
    Orders.single_iff.mpr ⟨⟨[], [], none⟩, [], [], [], rfl, .nil, .nil, .nil, rfl⟩
  exact Orders.single_iff.mpr
    ⟨⟨[], [['A'], ['B']], none⟩, [], [['B'], ['A']], [], rfl, .nil, ofB.append ofA, .nil, rfl⟩

theorem oneMixin_singlePaths : oneMixin.SinglePaths ['C'] := by
  have turns_eq : ∀ y, Mixin oneMixin.parts? y → ∀ turns, Path oneMixin.parts? .cls ['C'] turns y →
      turns = [.included 0] := by
    intro y isMod turns path
    have isA : y = ['A'] := by
      rcases isMod with ⟨x, parts, found, mem⟩
      rcases Option.map_eq_some_iff.mp found with ⟨entry, loaded, rfl⟩
      have all : ∀ pair ∈ oneMixin.classes, ∀ m ∈ pair.2.prepends ++ pair.2.includes, m = ['A'] := by
        decide
      exact all _ (mem_classes loaded) y mem
    subst isA
    have found : oneMixin.parts? ['C'] = some ⟨[], [['A']], some ['O']⟩ := rfl
    cases path with
    | prepended found' declared path =>
        cases found.symm.trans found'
        contradiction
    | @included _ _ _ _ _ position _ found' declared path =>
        cases found.symm.trans found'
        match position with
        | 0 =>
            cases declared
            rw [(turns_of_leaf path rfl nofun).1]
    | inherited found' declared path =>
        cases found.symm.trans found'
        cases declared
        have impossible := (turns_of_leaf path rfl fun _ => rfl).2
        contradiction
  intro y isMod turns turns' path path'
  rw [turns_eq y isMod turns path, turns_eq y isMod turns' path']

/-! ## Where the chain is Ruby's order -/

/-- The chain is Ruby's order exactly where nothing the class is built on has a second mixin, and a
module has no superclass but one that its own part comes right before. -/
theorem followsResolutionOrder_iff (data : CoreData Def) (wf : data.WellFormed) (className : Text)
    (loaded : (data.entry? className).isSome = true) (single : data.SinglePaths className) :
    data.FollowsResolutionOrder className ↔
      ∀ order, data.ResolutionOrder className order → Straight data.parts? order (.cls, className) := by
  rcases collect_extends data (data.classes.length + 1) className Walk.start
    (Nat.lt_succ_of_le List.countP_le_length) with ⟨after, collected, -⟩
  have visits := collect_visits data wf loaded collected
  have answered : data.ancestors className = some (after.order, after.complete) := by
    rw [ancestors, collected]
    rfl
  have order_eq : ∀ order, data.ResolutionOrder className order →
      (after.order = order ↔ Straight data.parts? order (.cls, className)) := fun order orders =>
    order_eq_iff (wf.nodup single orders) wf.sorted (wf.acc className) orders visits
  rcases wf.existsUnique_order loaded with ⟨order, orders, unique⟩
  constructor
  · rintro ⟨order', complete, orders', -, answered'⟩ order'' orders''
    cases unique order' orders'
    cases unique order'' orders''
    rw [answered] at answered'
    cases answered'
    exact (order_eq _ orders).mp rfl
  · intro straight
    have same := (order_eq order orders).mpr (straight order orders)
    exact ⟨order, after.complete, orders, wf.nodup single orders, by rw [answered, same]⟩

/-- The chain is Ruby's where the superclass follows the only module. -/
theorem followsResolutionOrder_oneMixin : oneMixin.FollowsResolutionOrder ['C'] := by
  apply (followsResolutionOrder_iff oneMixin oneMixin_wellFormed ['C'] rfl oneMixin_singlePaths).mpr
  intro order orders
  have ofO : Orders oneMixin.parts? .cls [['O']] [['O']] :=
    Orders.single_iff.mpr ⟨⟨[], [], none⟩, [], [], [], rfl, .nil, .nil, .nil, rfl⟩
  have ofA : Orders oneMixin.parts? .mod [['A']] [['A']] :=
    Orders.single_iff.mpr ⟨⟨[], [], some ['O']⟩, [], [], [], rfl, .nil, .nil, .nil, rfl⟩
  have ofC : Orders oneMixin.parts? .cls [['C']] [['C'], ['A'], ['O']] :=
    Orders.single_iff.mpr
      ⟨⟨[], [['A']], some ['O']⟩, [], [['A']], [['O']], rfl, .nil, ofA, ofO, rfl⟩
  cases Orders.unique orders ofC
  have straightO : Straight oneMixin.parts? [['C'], ['A'], ['O']] (.cls, ['O']) := by
    have found : oneMixin.parts? ['O'] = some ⟨[], [], none⟩ := rfl
    rw [Straight.iff_parts found]
    exact ⟨⟨by decide, by decide, nofun⟩, nofun, nofun, nofun⟩
  have straightA : Straight oneMixin.parts? [['C'], ['A'], ['O']] (.mod, ['A']) := by
    have found : oneMixin.parts? ['A'] = some ⟨[], [], some ['O']⟩ := rfl
    rw [Straight.iff_parts found]
    have next : Follows oneMixin.parts? [['C'], ['A'], ['O']] ['A'] ['O'] :=
      ⟨[['C']], [['A']], [['O']], rfl, ofA, ofO⟩
    have inherited : ∀ S, some ['O'] = some S → S ∈ [['C'], ['A'], ['O']] ∧
        ∃ T, Exits oneMixin.parts? ['A'] T ∧ Follows oneMixin.parts? [['C'], ['A'], ['O']] ['A'] T := by
      rintro S ⟨⟩
      exact ⟨by decide, ['O'], .own rfl rfl, next⟩
    exact ⟨⟨by decide, by decide, fun _ => inherited⟩, nofun, nofun, by simpa using straightO⟩
  have found : oneMixin.parts? ['C'] = some ⟨[], [['A']], some ['O']⟩ := rfl
  rw [Straight.iff_parts found]
  exact ⟨⟨by decide, by decide, nofun⟩, nofun, by simpa using straightA, by simpa using straightO⟩

/-- Ruby places `B` ahead of `A`, the chain behind it. -/
theorem not_followsResolutionOrder_twoMixins : twoMixins.WellFormed ∧ twoMixins.SinglePaths ['C'] ∧
    ¬ twoMixins.FollowsResolutionOrder ['C'] := by
  apply And.intro twoMixins_wellFormed
  apply And.intro twoMixins_singlePaths
  rintro ⟨order, complete, orders, -, answered⟩
  cases Orders.unique orders twoMixins_order
  have chain : twoMixins.ancestors ['C'] = some ([['C'], ['A'], ['B']], true) := rfl
  rw [chain] at answered
  simp at answered

end Rigor.Index.CoreData
