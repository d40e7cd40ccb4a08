import Rigor.Library.Mixins

/-!
# A depth-first walk over mixins

A walk that enters each name once and visits the mixins in the order of their declarations, as it
would the superclass of anything.  It lists the names in the method resolution order exactly where
it meets no second mixin, and no superclass of a module except where the order goes on with it.
-/

namespace Rigor.Library.Mixins

open Relation

universe u

variable {Name : Type u}

/-- The names pushed so far, and the names entered. -/
structure Trail (Name : Type u) where
  order : List Name
  seen : List Name

/-- The walk from some names, one after the other. -/
inductive Visits (table : Name → Option (Parts Name)) :
    List Name → Trail Name → Trail Name → Prop where
  | nil {trail : Trail Name} : Visits table [] trail trail
  | skip {x : Name} {rest : List Name} {trail last : Trail Name} (seen : x ∈ trail.seen)
      (remaining : Visits table rest trail last) : Visits table (x :: rest) trail last
  | enter {x : Name} {rest : List Name} {parts : Parts Name} {trail first second third last : Trail Name}
      (found : table x = some parts) (fresh : x ∉ trail.seen)
      (prepended : Visits table parts.prepended ⟨trail.order, x :: trail.seen⟩ first)
      (included : Visits table parts.included ⟨first.order ++ [x], first.seen⟩ second)
      (inherited : Visits table parts.inherited.toList second third)
      (remaining : Visits table rest third last) : Visits table (x :: rest) trail last

variable {table : Name → Option (Parts Name)}

namespace Visits

variable {names : List Name} {trail last : Trail Name} {x : Name}

theorem order_prefix (visits : Visits table names trail last) : trail.order <+: last.order := by
  induction visits with
  | nil => exact List.prefix_rfl
  | skip seen remaining ih => exact ih
  | enter found fresh prepended included inherited remaining first second third fourth =>
      calc
        _ <+: _ := first
        _ <+: _ := List.prefix_append _ _
        _ <+: _ := second
        _ <+: _ := third
        _ <+: _ := fourth

theorem append {names' : List Name} {middle : Trail Name} (visits : Visits table names trail middle)
    (visits' : Visits table names' middle last) : Visits table (names ++ names') trail last := by
  induction visits with
  | nil => exact visits'
  | skip seen _ ih => exact .skip seen (ih visits')
  | enter found fresh prepended included inherited _ _ _ _ ih =>
      exact .enter found fresh prepended included inherited (ih visits')

theorem eq_of_seen (visits : Visits table names trail last) (seen : ∀ x ∈ names, x ∈ trail.seen) :
    last = trail := by
  induction visits with
  | nil => rfl
  | skip _ remaining ih => exact ih fun x mem => seen x (List.mem_cons_of_mem _ mem)
  | enter found fresh => exact absurd (seen _ List.mem_cons_self) fresh

/-- The walk pushes the name it enters. -/
theorem mem_order (visits : Visits table (x :: names) trail last) (fresh : x ∉ trail.seen) :
    x ∈ last.order := by
  cases visits with
  | skip seen remaining => exact absurd seen fresh
  | enter found _ prepended included inherited remaining =>
      have inside := included.order_prefix.subset (List.mem_append_right _ (List.mem_singleton_self x))
      exact remaining.order_prefix.subset (inherited.order_prefix.subset inside)

/-- What the walk pushes first stands in the order of the first name. -/
theorem exists_first {kind : Kind} {order : List Name} (visits : Visits table (x :: names) trail last)
    (orders : Orders table kind [x] order) (nodup : order.Nodup)
    (fresh : ∀ y ∈ order, y ∉ trail.seen) :
    ∃ y ∈ order, trail.order ++ [y] <+: last.order := by
  suffices ∀ whole trail last, Visits table whole trail last → ∀ x names kind order,
      whole = x :: names → Orders table kind [x] order → order.Nodup →
      (∀ y ∈ order, y ∉ trail.seen) → ∃ y ∈ order, trail.order ++ [y] <+: last.order from
    this _ _ _ visits _ _ _ _ rfl orders nodup fresh
  clear visits orders nodup fresh
  intro whole trail last visits
  induction visits with
  | nil => exact fun _ _ _ _ impossible => nomatch impossible
  | skip seen =>
      rintro _ names kind order ⟨⟩ orders - fresh
      exact absurd seen (fresh _ orders.head_mem)
  | @enter x rest parts trail first second third last found _ prepended included inherited remaining
      ih _ _ _ =>
      rintro _ names kind order ⟨⟩ orders nodup fresh
      have later : first.order ++ [x] <+: last.order :=
        included.order_prefix.trans (inherited.order_prefix.trans remaining.order_prefix)
      rcases Orders.single_iff.mp orders with
        ⟨parts', before, after, above, found', before', after', above', rfl⟩
      cases found.symm.trans found'
      cases declared : parts.prepended with
      | nil =>
          rw [declared] at prepended
          cases prepended
          exact ⟨x, by simp, later⟩
      | cons m more =>
          rw [declared, List.reverse_cons] at before'
          rcases before'.exists_of_append with ⟨front, inner, rfl, -, orders⟩
          have apart := List.nodup_append.mp nodup
          have innerNodup := (List.nodup_append.mp apart.1).2.1
          have innerFresh : ∀ y ∈ inner, y ∉ x :: trail.seen := by
            intro y mem
            have inside : y ∈ front ++ inner := List.mem_append_right _ mem
            rw [List.mem_cons, not_or]
            exact ⟨apart.2.2 y inside x List.mem_cons_self, fresh y (List.mem_append_left _ inside)⟩
          rcases ih m more .mod inner declared orders innerNodup innerFresh with ⟨y, mem, pushed⟩
          have inside : y ∈ front ++ inner := List.mem_append_right _ mem
          exact ⟨y, List.mem_append_left _ inside,
            pushed.trans ((List.prefix_append _ _).trans later)⟩

end Visits

/-! ## Where the walk keeps to the order -/

/-- The superclass the table gives to a module, or to a module included in it. -/
inductive Exits (table : Name → Option (Parts Name)) : Name → Name → Prop where
  | own {x T : Name} {parts : Parts Name} (found : table x = some parts)
      (declared : parts.inherited = some T) : Exits table x T
  | inner {x m T : Name} {parts : Parts Name} (found : table x = some parts)
      (declared : m ∈ parts.included) (exits : Exits table m T) : Exits table x T

/-- Behind the module's own part the order is that of the class. -/
def Follows (table : Name → Option (Parts Name)) (order : List Name) (x T : Name) : Prop :=
  ∃ front own back, order = front ++ own ++ back ∧ Orders table .mod [x] own ∧
    Orders table .cls [T] back

/-- One mixin of each kind at most, and no superclass of a module but one that comes next. -/
structure Fine (table : Name → Option (Parts Name)) (order : List Name) (kind : Kind) (x : Name)
    (parts : Parts Name) : Prop where
  prepended : parts.prepended.length ≤ 1
  included : parts.included.length ≤ 1
  inherited : kind = .mod → ∀ S, parts.inherited = some S →
    S ∈ order ∧ ∃ T, Exits table x T ∧ Follows table order x T

/-- From a class or a module to what it is built on. -/
inductive Step (table : Name → Option (Parts Name)) : Kind × Name → Kind × Name → Prop where
  | prepended {kind : Kind} {x m : Name} {parts : Parts Name} (found : table x = some parts)
      (declared : m ∈ parts.prepended) : Step table (kind, x) (.mod, m)
  | included {kind : Kind} {x m : Name} {parts : Parts Name} (found : table x = some parts)
      (declared : m ∈ parts.included) : Step table (kind, x) (.mod, m)
  | inherited {kind : Kind} {x T : Name} {parts : Parts Name} (found : table x = some parts)
      (declared : parts.inherited = some T) : Step table (kind, x) (.cls, T)

/-- Everything a class or a module is built on is fine. -/
def Straight (table : Name → Option (Parts Name)) (order : List Name) (start : Kind × Name) : Prop :=
  ∀ kind x parts, ReflTransGen (Step table) start (kind, x) → table x = some parts →
    Fine table order kind x parts

namespace Straight

variable {order : List Name} {kind : Kind} {x : Name} {parts : Parts Name}

theorem of_step {node other : Kind × Name} (straight : Straight table order node)
    (step : Step table node other) : Straight table order other :=
  fun kind x parts reached => straight kind x parts (.head step reached)

theorem of_inherits {T S : Name} (straight : Straight table order (.cls, T))
    (inherits : ReflTransGen (Inherits table) T S) : Straight table order (.cls, S) := by
  induction inherits with
  | refl => exact straight
  | tail _ step ih =>
      rcases step with ⟨parts, found, declared⟩
      exact ih.of_step (.inherited found declared)

theorem iff_parts (found : table x = some parts) : Straight table order (kind, x) ↔
    Fine table order kind x parts ∧ (∀ m ∈ parts.prepended, Straight table order (.mod, m)) ∧
      (∀ m ∈ parts.included, Straight table order (.mod, m)) ∧
      ∀ T ∈ parts.inherited.toList, Straight table order (.cls, T) := by
  constructor
  · intro straight
    have above : ∀ T ∈ parts.inherited.toList, Straight table order (.cls, T) := fun T declared =>
      straight.of_step (.inherited found (Option.mem_toList.mp declared))
    exact ⟨straight kind x parts .refl found,
      fun m declared => straight.of_step (.prepended found declared),
      fun m declared => straight.of_step (.included found declared), above⟩
  · rintro ⟨fine, prepended, included, inherited⟩ kind' y parts' reached found'
    rcases ReflTransGen.cases_head reached with same | ⟨node, step, reached⟩
    · cases same
      cases found.symm.trans found'
      exact fine
    · cases step with
      | prepended found'' declared =>
          cases found.symm.trans found''
          exact prepended _ declared kind' y parts' reached found'
      | included found'' declared =>
          cases found.symm.trans found''
          exact included _ declared kind' y parts' reached found'
      | inherited found'' declared =>
          cases found.symm.trans found''
          exact inherited _ (Option.mem_toList.mpr declared) kind' y parts' reached found'

end Straight

/-! ## The walk against the order -/

/-- The walk before some names, where the order goes on with their own part. -/
structure Here (table : Name → Option (Parts Name)) (order : List Name) (kind : Kind)
    (names : List Name) (trail : Trail Name) (stack mid rest own : List Name) : Prop where
  orders : Orders table kind names.reverse own
  whole : order = trail.order ++ (own ++ (mid ++ rest))
  seen : ∀ y, y ∈ trail.seen ↔ y ∈ trail.order ∨ y ∈ stack
  stack : ∀ y ∈ stack, y ∈ mid ∧ ∀ m ∈ names, TransGen (Edge table) y m
  below : ∀ y ∈ trail.order ++ mid, Mixin table y ∨ ∀ m ∈ names, TransGen (Edge table) y m
  above : ∃ sup : Option Name, Orders table .cls sup.toList rest
  ofClass : kind = .cls → mid = [] ∧ rest = []
  ofModule : kind = .mod → ∀ m ∈ names, Mixin table m

/-- The walk has pushed the part of the names. -/
structure Kept (table : Name → Option (Parts Name)) (kind : Kind) (names : List Name)
    (trail last : Trail Name) (stack own : List Name) : Prop where
  pushed : last.order = trail.order ++ own
  seen : ∀ y, y ∈ last.seen ↔ y ∈ last.order ∨ y ∈ stack
  noExit : kind = .mod → ∀ m ∈ names, ∀ T, ¬ Exits table m T

/-- The walk has left a module for the class that comes next, and has pushed everything. -/
structure Left (table : Name → Option (Parts Name)) (order : List Name) (kind : Kind)
    (names : List Name) (last : Trail Name) (stack mid rest : List Name) : Prop where
  isMod : kind = .mod
  stack : stack = []
  pushed : last.order = order
  seen : ∀ y, y ∈ last.seen ↔ y ∈ order
  exits : ∃ m ∈ names, ∃ T, Exits table m T ∧ Orders table .cls [T] (mid ++ rest) ∧
    Straight table order (.cls, T)

/-- The walk keeps to the order exactly where the names are fine. -/
structure Settled (table : Name → Option (Parts Name)) (order : List Name) (kind : Kind)
    (names : List Name) (trail last : Trail Name) (stack mid rest own : List Name) : Prop where
  keeps_iff : last.order <+: order ↔
    names.length ≤ 1 ∧ ∀ m ∈ names, Straight table order (kind, m)
  outcome : last.order <+: order → Kept table kind names trail last stack own ∨
    Left table order kind names last stack mid rest

theorem Settled.of_fails {order : List Name} {kind : Kind} {names : List Name} {trail last : Trail Name}
    {stack mid rest own : List Name} (fails : ¬ last.order <+: order)
    (crooked : ¬ (names.length ≤ 1 ∧ ∀ m ∈ names, Straight table order (kind, m))) :
    Settled table order kind names trail last stack mid rest own := by
  constructor
  · exact iff_of_false fails crooked
  · exact fun keeps => absurd keeps fails

section Walk

variable {order : List Name} {kind : Kind} {names : List Name} {trail last : Trail Name}
  {stack mid rest own : List Name}

namespace Here

theorem fresh (here : Here table order kind names trail stack mid rest own) (nodup : order.Nodup) :
    ∀ y ∈ own, y ∉ trail.seen := by
  intro y mem seen
  rw [here.whole] at nodup
  have apart := List.nodup_append.mp nodup
  rcases (here.seen y).mp seen with inOrder | inStack
  · exact apart.2.2 y inOrder y (List.mem_append_left _ mem) rfl
  · have inMid := List.mem_append_left rest (here.stack y inStack).1
    exact (List.nodup_append.mp apart.2.1).2.2 y mem y inMid rfl

/-- Of several names the walk takes the first one, and the order the last. -/
theorem not_prefix {m m' : Name} {more : List Name}
    (here : Here table order kind (m :: m' :: more) trail stack mid rest own) (nodup : order.Nodup)
    (visits : Visits table (m :: m' :: more) trail last) : ¬ last.order <+: order := by
  intro keeps
  have fresh := here.fresh nodup
  have orders := here.orders
  rw [List.reverse_cons] at orders
  rcases orders.exists_of_append with ⟨front, inner, rfl, others, orders⟩
  have whole := here.whole
  rw [whole] at nodup
  have ownNodup := (List.nodup_append.mp (List.nodup_append.mp nodup).2.1).1
  have apart := List.nodup_append.mp ownNodup
  rcases visits.exists_first orders apart.2.1 fun y mem => fresh y (List.mem_append_right _ mem) with
    ⟨y, mem, pushed⟩
  cases front with
  | nil =>
      have inside : m' ∈ (m' :: more).reverse := List.mem_reverse.mpr List.mem_cons_self
      exact absurd (others.subset inside) List.not_mem_nil
  | cons z front =>
      have first : trail.order ++ [y] <+: trail.order ++ (z :: front ++ inner ++ (mid ++ rest)) := by
        rw [← whole]
        exact pushed.trans keeps
      rw [List.prefix_append_right_inj] at first
      have same : y = z := (List.cons_prefix_cons.mp first).1
      exact apart.2.2 z List.mem_cons_self y mem same.symm

theorem settled (here : Here table order kind names trail stack mid rest own) (nodup : order.Nodup)
    (visits : Visits table names trail last)
    (single : ∀ m, names = [m] → Settled table order kind names trail last stack mid rest own) :
    Settled table order kind names trail last stack mid rest own := by
  match names with
  | [] =>
      cases visits
      have orders := here.orders
      cases orders
      constructor
      · simp [here.whole]
      · intro _
        exact .inl ⟨(List.append_nil _).symm, here.seen, nofun⟩
  | [m] => exact single m rfl
  | m :: m' :: more =>
      exact .of_fails (here.not_prefix nodup visits) fun ⟨short, _⟩ => absurd short (by simp)

end Here

/-! ## The parts of one name -/

section Parts

variable {x : Name} {parts : Parts Name} {before after above : List Name} {first second : Trail Name}

namespace Here

/-- A module has nothing above, and behind the part of a class nothing else comes. -/
theorem shift (here : Here table order kind [x] trail stack mid rest own)
    (inherited : Orders table .cls (parts.above kind) above) :
    above ++ (mid ++ rest) = mid ++ (above ++ rest) := by
  cases kind with
  | mod =>
      cases inherited
      rfl
  | cls =>
      rcases here.ofClass rfl with ⟨rfl, rfl⟩
      rfl

theorem sup (here : Here table order kind [x] trail stack mid rest own)
    (inherited : Orders table .cls (parts.above kind) above) :
    ∃ sup : Option Name, Orders table .cls sup.toList (above ++ rest) := by
  cases kind with
  | mod =>
      cases inherited
      exact here.above
  | cls =>
      rcases here.ofClass rfl with ⟨rfl, rfl⟩
      rw [List.append_nil]
      exact ⟨parts.inherited, inherited⟩

theorem mixin_of_mem {names : List Name} (found : table x = some parts)
    (orders : Orders table .mod names order) (declared : names ⊆ parts.mixins) :
    ∀ y ∈ order, Mixin table y :=
  orders.mixin rfl fun _ mem => ⟨x, parts, found, declared mem⟩

/-- What leads to a name leads to its mixins. -/
theorem below_of_edges {names : List Name} {y : Name}
    (here : Here table order kind [x] trail stack mid rest own) (step : ∀ m ∈ names, Edge table x m)
    (mem : y ∈ trail.order ++ mid) : Mixin table y ∨ ∀ m ∈ names, TransGen (Edge table) y m :=
  (here.below y mem).imp id fun reaches m declared =>
    (reaches x List.mem_cons_self).tail (step m declared)

theorem toPrepended (found : table x = some parts)
    (here : Here table order kind [x] trail stack mid rest (before ++ x :: (after ++ above)))
    (prepended : Orders table .mod parts.prepended.reverse before)
    (included : Orders table .mod parts.included.reverse after)
    (inherited : Orders table .cls (parts.above kind) above) :
    Here table order .mod parts.prepended ⟨trail.order, x :: trail.seen⟩ (x :: stack)
      (x :: (after ++ mid)) (above ++ rest) before where
  orders := prepended
  whole := by
    have shift := here.shift inherited
    rw [here.whole]
    simp only [List.append_assoc, List.cons_append, shift]
  seen y := by
    rw [List.mem_cons, List.mem_cons, here.seen y]
    tauto
  stack y mem := by
    rcases List.mem_cons.mp mem with rfl | mem
    · exact ⟨List.mem_cons_self, fun m declared =>
        .single (edge_of_mixin found (List.mem_append_left _ declared))⟩
    · rcases here.stack y mem with ⟨inMid, reaches⟩
      exact ⟨List.mem_cons_of_mem _ (List.mem_append_right _ inMid), fun m declared =>
        (reaches x List.mem_cons_self).tail (edge_of_mixin found (List.mem_append_left _ declared))⟩
  below y mem := by
    have step : ∀ m ∈ parts.prepended, Edge table x m := fun m declared =>
      edge_of_mixin found (List.mem_append_left _ declared)
    have old := here.below_of_edges step (y := y)
    have inAfter : y ∈ after → Mixin table y := mixin_of_mem found included
      (fun m declared => List.mem_append_right _ (List.mem_reverse.mp declared)) y
    simp only [List.mem_append, List.mem_cons] at mem old
    rcases mem with inOrder | rfl | mem | inMid
    · exact old (.inl inOrder)
    · exact .inr fun m declared => .single (step m declared)
    · exact .inl (inAfter mem)
    · exact old (.inr inMid)
  above := here.sup inherited
  ofClass := nofun
  ofModule _ m declared := ⟨x, parts, found, List.mem_append_left _ declared⟩

theorem toIncluded (found : table x = some parts)
    (here : Here table order kind [x] trail stack mid rest (before ++ x :: (after ++ above)))
    (prepended : Orders table .mod parts.prepended.reverse before)
    (included : Orders table .mod parts.included.reverse after)
    (inherited : Orders table .cls (parts.above kind) above)
    (pushed : first.order = trail.order ++ before)
    (seen : ∀ y, y ∈ first.seen ↔ y ∈ first.order ∨ y ∈ x :: stack) :
    Here table order .mod parts.included ⟨first.order ++ [x], first.seen⟩ stack mid (above ++ rest)
      after where
  orders := included
  whole := by
    have shift := here.shift inherited
    rw [here.whole, pushed]
    simp only [List.append_assoc, List.cons_append, List.nil_append, shift]
  seen y := by
    rw [seen, List.mem_append, List.mem_singleton, List.mem_cons]
    tauto
  stack y mem := by
    rcases here.stack y mem with ⟨inMid, reaches⟩
    exact ⟨inMid, fun m declared => (reaches x List.mem_cons_self).tail
      (edge_of_mixin found (List.mem_append_right _ declared))⟩
  below y mem := by
    have step : ∀ m ∈ parts.included, Edge table x m := fun m declared =>
      edge_of_mixin found (List.mem_append_right _ declared)
    have old := here.below_of_edges step (y := y)
    have inBefore : y ∈ before → Mixin table y := mixin_of_mem found prepended
      (fun m declared => List.mem_append_left _ (List.mem_reverse.mp declared)) y
    simp only [pushed, List.mem_append, List.mem_singleton] at mem old
    rcases mem with ((inOrder | mem) | rfl) | inMid
    · exact old (.inl inOrder)
    · exact .inl (inBefore mem)
    · exact .inr fun m declared => .single (step m declared)
    · exact old (.inr inMid)
  above := here.sup inherited
  ofClass := nofun
  ofModule _ m declared := ⟨x, parts, found, List.mem_append_right _ declared⟩

/-- The classes pushed before a superclass lead to it. -/
theorem toInherited {T : Name} {part own' : List Name} (found : table x = some parts)
    (declared : parts.inherited = some T)
    (here : Here table order kind [x] trail stack mid rest own)
    (inside : ∀ y ∈ part, y = x ∨ Mixin table y) (pushed : second.order = trail.order ++ part)
    (seen : ∀ y, y ∈ second.seen ↔ y ∈ second.order) (orders : Orders table .cls [T] own')
    (whole : order = second.order ++ own') : Here table order .cls [T] second [] [] [] own' where
  orders := orders
  whole := by rw [whole, List.append_nil, List.append_nil]
  seen y := by simp [seen]
  stack y mem := nomatch mem
  below y mem := by
    have step := edge_of_inherited found declared
    rw [List.append_nil, pushed, List.mem_append] at mem
    rw [List.forall_mem_singleton]
    rcases mem with inOrder | mem
    · have old := here.below y (List.mem_append_left _ inOrder)
      exact old.imp id fun reaches => (reaches x List.mem_cons_self).tail step
    · rcases inside y mem with rfl | mixin
      · exact .inr (.single step)
      · exact .inl mixin
  above := ⟨none, .nil⟩
  ofClass _ := ⟨rfl, rfl⟩
  ofModule := nofun

end Here

/-- What the walk makes of the superclass, when the mixins have gone well. -/
structure Finished (table : Name → Option (Parts Name)) (order : List Name) (kind : Kind) (x : Name)
    (parts : Parts Name) (trail last : Trail Name) (stack mid rest own : List Name) : Prop where
  keeps_iff : last.order <+: order ↔
    (kind = .mod → ∀ S, parts.inherited = some S →
      S ∈ order ∧ ∃ T, Exits table x T ∧ Follows table order x T) ∧
    ∀ T ∈ parts.inherited.toList, Straight table order (.cls, T)
  outcome : last.order <+: order → Kept table kind [x] trail last stack own ∨
    Left table order kind [x] last stack mid rest

/-- The walk fails, and the superclass is not fine. -/
theorem Finished.of_fails {S : Name} (declared : parts.inherited = some S)
    (fails : ¬ last.order <+: order)
    (crooked : ¬ (S ∈ order ∧ ∃ T, Exits table x T ∧ Follows table order x T)) :
    Finished table order .mod x parts trail last stack mid rest own := by
  constructor
  · constructor
    · exact fun keeps => absurd keeps fails
    · exact fun ⟨fine, _⟩ => absurd (fine rfl S declared) crooked
  · exact fun keeps => absurd keeps fails

/-- The table is well formed: no reference leads back, and no module is a superclass. -/
structure Sorted (table : Name → Option (Parts Name)) : Prop where
  acyclic : ∀ x, ¬ TransGen (Edge table) x x
  apart : ∀ x, Mixin table x → ¬ Inherited table x

theorem Sorted.not_mixin {T : Name} (sorted : Sorted table) (found : table x = some parts)
    (declared : parts.inherited = some T) : ¬ Mixin table T :=
  fun mixin => sorted.apart T mixin ⟨x, parts, found, declared⟩

/-- The walk settles whatever a name refers to. -/
def SettlesBelow (table : Name → Option (Parts Name)) (order : List Name) (x : Name) : Prop :=
  ∀ m, Edge table x m → ∀ kind trail last stack mid rest own,
    Here table order kind [m] trail stack mid rest own → Visits table [m] trail last →
    Settled table order kind [m] trail last stack mid rest own

/-- The walk of a class, behind its included modules. -/
theorem finished_cls (sorted : Sorted table) (found : table x = some parts)
    (inner : SettlesBelow table order x)
    (here : Here table order .cls [x] trail stack mid rest (before ++ x :: (after ++ above)))
    (prepended : Orders table .mod parts.prepended.reverse before)
    (included : Orders table .mod parts.included.reverse after)
    (inherited : Orders table .cls (parts.above .cls) above)
    (reached : second.order <+: order)
    (outcome : Kept table .mod parts.included ⟨trail.order ++ before ++ [x], first.seen⟩ second stack
        after ∨
      Left table order .mod parts.included second stack mid (above ++ rest))
    (visits : Visits table parts.inherited.toList second last) :
    Finished table order .cls x parts trail last stack mid rest (before ++ x :: (after ++ above)) := by
  rcases here.ofClass rfl with ⟨rfl, rfl⟩
  have noStack : stack = [] := List.eq_nil_iff_forall_not_mem.mpr fun y mem =>
    List.not_mem_nil (here.stack y mem).1
  subst noStack
  have whole : order = trail.order ++ (before ++ x :: (after ++ above)) := by
    rw [here.whole, List.append_nil, List.append_nil]
  cases declared : parts.inherited with
  | none =>
      rw [declared] at visits
      cases visits
      have none : above = [] := by
        rw [Parts.above, declared] at inherited
        cases inherited
        rfl
      subst none
      constructor
      · simp [reached, declared]
      · intro _
        rcases outcome with kept | left
        · have pushed := kept.pushed
          exact .inl ⟨by simpa using pushed, kept.seen, by rintro ⟨⟩⟩
        · have pushed := left.pushed
          exact .inl ⟨by rw [pushed, whole], by simpa [pushed] using left.seen, by rintro ⟨⟩⟩
  | some T =>
      have edge := edge_of_inherited found declared
      have orders : Orders table .cls [T] above := by
        rw [Parts.above, declared] at inherited
        exact inherited
      rw [declared] at visits
      rcases outcome with kept | left
      · have rest' : order = second.order ++ above := by
          rw [whole, kept.pushed]
          simp
        have inBefore := Here.mixin_of_mem found prepended fun m declared =>
          List.mem_append_left _ (List.mem_reverse.mp declared)
        have inAfter := Here.mixin_of_mem found included fun m declared =>
          List.mem_append_right _ (List.mem_reverse.mp declared)
        have inside : ∀ y ∈ before ++ x :: after, y = x ∨ Mixin table y := by
          intro y mem
          rcases List.mem_append.mp mem with mem | mem
          · exact .inr (inBefore y mem)
          · exact (List.mem_cons.mp mem).imp id (inAfter y)
        have pushed : second.order = trail.order ++ (before ++ x :: after) := by
          rw [kept.pushed]
          simp
        have seen : ∀ y, y ∈ second.seen ↔ y ∈ second.order := by simpa using kept.seen
        have settled := inner T edge .cls second last [] [] [] above
          (here.toInherited found declared inside pushed seen orders rest') visits
        constructor
        · rw [settled.keeps_iff]
          simp [declared]
        · intro keeps
          rcases settled.outcome keeps with done | ⟨impossible, -, -, -, -⟩
          · have pushed : last.order = order := by rw [done.pushed, rest']
            exact .inl ⟨by rw [pushed, whole], done.seen, by rintro ⟨⟩⟩
          · contradiction
      · have isClass := sorted.not_mixin found declared
        have inAbove : T ∈ above := orders.head_mem
        have inOrder : T ∈ order := by
          rw [whole]
          simp [inAbove]
        have same : last = second := visits.eq_of_seen (by simpa using (left.seen T).mpr inOrder)
        subst same
        rcases left.exits with ⟨m, -, U, -, orders', straight⟩
        rw [List.nil_append, List.append_nil] at orders'
        rcases orders'.suffix_of_mem inAbove isClass with ⟨-, -, -, -, inherits⟩
        constructor
        · simp [reached, declared, straight.of_inherits inherits]
        · intro _
          exact .inl ⟨by rw [left.pushed, whole], by simpa [left.pushed] using left.seen, by rintro ⟨⟩⟩

/-- The superclass of a module is neither pushed nor waited for before its class comes. -/
theorem Here.inherited_not_mem {S : Name} (sorted : Sorted table) (found : table x = some parts)
    (declared : parts.inherited = some S)
    (here : Here table order .mod [x] trail stack mid rest own) :
    S ∉ trail.order ++ own ++ mid := by
  have isClass := sorted.not_mixin found declared
  have edge := edge_of_inherited found declared
  have outside : S ∉ trail.order ++ mid := by
    intro mem
    rcases here.below S mem with mixin | reaches
    · exact isClass mixin
    · exact sorted.acyclic x (.head edge (reaches x List.mem_cons_self))
  have notOwn : S ∉ own := fun mem => isClass (here.orders.mixin rfl
    (fun m inside => here.ofModule rfl m (List.mem_reverse.mp inside)) S mem)
  simp only [List.mem_append, not_or] at outside ⊢
  exact ⟨⟨outside.1, notOwn⟩, outside.2⟩

/-- A part that ends the order up to some place has nothing between itself and that place. -/
theorem eq_nil_of_append_eq {α : Type u} {front own start gap : List α} (nonempty : own ≠ [])
    (nodup : (start ++ (own ++ gap)).Nodup) (same : front ++ own = start ++ (own ++ gap)) :
    gap = [] := by
  by_contra some
  have last : own.getLast nonempty = gap.getLast some := by
    have ends := congrArg List.getLast? same
    rw [List.getLast?_append_of_ne_nil _ nonempty, ← List.append_assoc,
      List.getLast?_append_of_ne_nil _ some, List.getLast?_eq_some_getLast nonempty,
      List.getLast?_eq_some_getLast some] at ends
    exact Option.some.inj ends
  have apart := (List.nodup_append.mp (List.nodup_append.mp nodup).2.1).2.2
  exact apart _ (List.getLast_mem nonempty) _ (List.getLast_mem some) last

/-- A module that the walk has left from a module inside it. -/
theorem finished_left {S : Name} (sorted : Sorted table) (found : table x = some parts)
    (declared : parts.inherited = some S)
    (here : Here table order .mod [x] trail stack mid rest own)
    (left : Left table order .mod parts.included second stack mid rest)
    (visits : Visits table [S] second last) :
    Finished table order .mod x parts trail last stack mid rest own := by
  rcases left.exits with ⟨m, inside, T, exits, orders, straight⟩
  have exits : Exits table x T := .inner found inside exits
  by_cases mem : S ∈ order
  · have same : last = second := visits.eq_of_seen (by simpa using (left.seen S).mpr mem)
    subst same
    have keeps : last.order <+: order := by rw [left.pushed]
    have isClass := sorted.not_mixin found declared
    have behind : S ∈ mid ++ rest := by
      have notBefore := here.inherited_not_mem sorted found declared
      rw [here.whole] at mem
      simp only [List.mem_append, not_or] at mem notBefore ⊢
      tauto
    have follows : Follows table order x T :=
      ⟨trail.order, own, mid ++ rest, by rw [here.whole, List.append_assoc], here.orders, orders⟩
    rcases orders.suffix_of_mem behind isClass with ⟨-, -, -, -, inherits⟩
    have above := straight.of_inherits inherits
    constructor
    · constructor
      · intro _
        constructor
        · rintro - S' declared'
          cases declared.symm.trans declared'
          exact ⟨mem, T, exits, follows⟩
        · intro S' declared'
          cases declared.symm.trans (Option.mem_toList.mp declared')
          exact above
      · exact fun _ => keeps
    · intro _
      exact .inr ⟨rfl, left.stack, left.pushed, left.seen, x, List.mem_singleton_self x, T, exits, orders,
        straight⟩
  · have fails : ¬ last.order <+: order := fun keeps =>
      mem (keeps.subset (visits.mem_order fun seen => mem ((left.seen S).mp seen)))
    exact .of_fails declared fails fun ⟨inOrder, _⟩ => mem inOrder

/-- The table gives the module its own superclass, where it gives none to the modules inside. -/
theorem exits_iff {S T : Name} (found : table x = some parts) (declared : parts.inherited = some S)
    (noExit : ∀ m ∈ parts.included, ∀ T, ¬ Exits table m T) : Exits table x T ↔ T = S := by
  constructor
  · intro exits
    cases exits with
    | own found' declared' =>
        cases found.symm.trans found'
        exact Option.some.inj (declared'.symm.trans declared)
    | inner found' declared' exits =>
        cases found.symm.trans found'
        exact absurd exits (noExit _ declared' T)
  · rintro rfl
    exact .own found declared

/-- A module that its superclass follows. -/
theorem finished_next {S : Name} {back : List Name} (found : table x = some parts)
    (declared : parts.inherited = some S) (inner : SettlesBelow table order x)
    (here : Here table order .mod [x] trail [] [] back own)
    (pushed : second.order = trail.order ++ own) (seen : ∀ y, y ∈ second.seen ↔ y ∈ second.order)
    (orders : Orders table .cls [S] back) (visits : Visits table [S] second last) :
    Finished table order .mod x parts trail last [] [] back own := by
  have edge := edge_of_inherited found declared
  have exits : Exits table x S := .own found declared
  have whole : order = second.order ++ back := by
    rw [here.whole, pushed, List.append_assoc]
    rfl
  have onlyModules : ∀ y ∈ own, y = x ∨ Mixin table y := fun y inOwn =>
    .inr (here.orders.mixin rfl
      (fun m inside => here.ofModule rfl m (List.mem_reverse.mp inside)) y inOwn)
  have settled := inner S edge .cls second last [] [] [] back
    (here.toInherited found declared onlyModules pushed seen orders whole) visits
  have keeps_iff : last.order <+: order ↔ Straight table order (.cls, S) := by
    rw [settled.keeps_iff]
    simp
  have mem : S ∈ order := by
    rw [whole]
    exact List.mem_append_right _ orders.head_mem
  have follows : Follows table order x S :=
    ⟨trail.order, own, back, by rw [whole, pushed], here.orders, orders⟩
  constructor
  · rw [keeps_iff]
    constructor
    · intro straight
      constructor
      · rintro - S' declared'
        cases declared.symm.trans declared'
        exact ⟨mem, S, exits, follows⟩
      · intro S' declared'
        cases declared.symm.trans (Option.mem_toList.mp declared')
        exact straight
    · exact fun ⟨_, straight⟩ => straight S (Option.mem_toList.mpr declared)
  · intro keeps
    rcases settled.outcome keeps with done | ⟨impossible, -, -, -, -⟩
    · have all : last.order = order := by rw [done.pushed, whole]
      exact .inr ⟨rfl, rfl, all, by simpa [all] using done.seen, x, List.mem_singleton_self x, S,
        exits, orders, keeps_iff.mp keeps⟩
    · contradiction

/-- A module that something else follows than its superclass. -/
theorem finished_gap {S z : Name} {gap back : List Name} (nodup : order.Nodup)
    (found : table x = some parts) (declared : parts.inherited = some S)
    (here : Here table order .mod [x] trail stack mid rest own)
    (pushed : second.order = trail.order ++ own)
    (fresh : ∀ y ∈ back, y ∉ second.seen)
    (noExit : ∀ m ∈ parts.included, ∀ T, ¬ Exits table m T)
    (whole : order = second.order ++ (z :: gap ++ back)) (orders : Orders table .cls [S] back)
    (visits : Visits table [S] second last) :
    Finished table order .mod x parts trail last stack mid rest own := by
  have apart := nodup
  rw [whole] at apart
  have apart := List.nodup_append.mp (List.nodup_append.mp apart).2.1
  have fails : ¬ last.order <+: order := by
    intro keeps
    rcases visits.exists_first orders apart.2.1 fresh with ⟨y, mem, pushed⟩
    have first : second.order ++ [y] <+: second.order ++ (z :: gap ++ back) := by
      rw [← whole]
      exact pushed.trans keeps
    rw [List.prefix_append_right_inj] at first
    have same : y = z := (List.cons_prefix_cons.mp first).1
    exact apart.2.2 z List.mem_cons_self y mem same.symm
  apply Finished.of_fails declared fails
  rintro ⟨-, T, exits, front, own', back', split, first, next⟩
  cases (exits_iff found declared noExit).mp exits
  cases first.unique here.orders
  cases next.unique orders
  have ends : front ++ own = trail.order ++ (own ++ (z :: gap)) := by
    apply (List.append_left_inj back).mp
    rw [← split, whole, pushed]
    simp only [List.append_assoc]
  have startNodup : (trail.order ++ (own ++ (z :: gap))).Nodup := by
    rw [← ends]
    rw [split] at nodup
    exact (List.nodup_append.mp nodup).1
  have nonempty : own ≠ [] := List.ne_nil_of_mem here.orders.head_mem
  exact absurd (eq_nil_of_append_eq nonempty startNodup ends) (List.cons_ne_nil _ _)

/-- A module that the walk leaves for its own superclass. -/
theorem finished_kept {S : Name} (nodup : order.Nodup) (sorted : Sorted table)
    (found : table x = some parts) (declared : parts.inherited = some S)
    (inner : SettlesBelow table order x)
    (here : Here table order .mod [x] trail stack mid rest own)
    (pushed : second.order = trail.order ++ own)
    (seen : ∀ y, y ∈ second.seen ↔ y ∈ second.order ∨ y ∈ stack)
    (noExit : ∀ m ∈ parts.included, ∀ T, ¬ Exits table m T)
    (visits : Visits table [S] second last) :
    Finished table order .mod x parts trail last stack mid rest own := by
  have isClass := sorted.not_mixin found declared
  have notBefore := here.inherited_not_mem sorted found declared
  rw [← pushed, List.mem_append, not_or] at notBefore
  have whole : order = second.order ++ (mid ++ rest) := by
    rw [here.whole, pushed, List.append_assoc]
  by_cases mem : S ∈ order
  · have inRest : S ∈ rest := by
      rw [whole, List.mem_append, List.mem_append] at mem
      exact (mem.resolve_left notBefore.1).resolve_left notBefore.2
    rcases here.above with ⟨sup, above⟩
    cases sup with
    | none =>
        cases above
        contradiction
    | some U =>
        rcases above.suffix_of_mem inRest isClass with ⟨front, back, rfl, orders, -⟩
        cases gap : mid ++ front with
        | nil =>
            rcases List.append_eq_nil_iff.mp gap with ⟨rfl, rfl⟩
            have noStack : stack = [] := List.eq_nil_iff_forall_not_mem.mpr fun y inStack =>
              List.not_mem_nil (here.stack y inStack).1
            subst noStack
            exact finished_next found declared inner here pushed (by simpa using seen) orders visits
        | cons z gap' =>
            have split : order = second.order ++ (z :: gap' ++ back) := by
              rw [whole, ← List.append_assoc mid, gap]
            have apart := nodup
            rw [split, List.nodup_append] at apart
            have fresh : ∀ y ∈ back, y ∉ second.seen := by
              intro y inBack
              rw [seen, not_or]
              constructor
              · intro inOrder
                exact apart.2.2 y inOrder y (List.mem_append_right _ inBack) rfl
              · intro inStack
                have inGap : y ∈ z :: gap' := by
                  rw [← gap]
                  exact List.mem_append_left _ (here.stack y inStack).1
                exact (List.nodup_append.mp apart.2.1).2.2 y inGap y inBack rfl
            exact finished_gap nodup found declared here pushed fresh noExit split orders visits
  · have fresh : S ∉ second.seen := by
      rw [seen, not_or]
      exact ⟨notBefore.1, fun inStack => notBefore.2 (here.stack S inStack).1⟩
    have fails : ¬ last.order <+: order := fun keeps =>
      mem (keeps.subset (visits.mem_order fresh))
    exact .of_fails declared fails fun ⟨inOrder, _⟩ => mem inOrder

/-- The walk of a module, behind the modules included in it. -/
theorem finished_mod (nodup : order.Nodup) (sorted : Sorted table) (found : table x = some parts)
    (inner : SettlesBelow table order x)
    (here : Here table order .mod [x] trail stack mid rest (before ++ x :: after))
    (reached : second.order <+: order)
    (outcome : Kept table .mod parts.included ⟨trail.order ++ before ++ [x], first.seen⟩ second stack
        after ∨
      Left table order .mod parts.included second stack mid rest)
    (visits : Visits table parts.inherited.toList second last) :
    Finished table order .mod x parts trail last stack mid rest (before ++ x :: after) := by
  cases declared : parts.inherited with
  | none =>
      rw [declared] at visits
      cases visits
      constructor
      · simp [reached, declared]
      · intro _
        rcases outcome with kept | left
        · have noExit : ∀ T, ¬ Exits table x T := by
            intro T exits
            cases exits with
            | own found' declared' =>
                cases found.symm.trans found'
                cases declared.symm.trans declared'
            | inner found' declared' exits =>
                cases found.symm.trans found'
                exact kept.noExit rfl _ declared' T exits
          have pushed := kept.pushed
          exact .inl ⟨by simpa using pushed, kept.seen, by simpa using noExit⟩
        · rcases left.exits with ⟨m, inside, T, exits, orders, straight⟩
          exact .inr ⟨rfl, left.stack, left.pushed, left.seen, x, List.mem_singleton_self x, T,
            .inner found inside exits, orders, straight⟩
  | some S =>
      rw [declared] at visits
      rcases outcome with kept | left
      · have pushed : second.order = trail.order ++ (before ++ x :: after) := by
          rw [kept.pushed]
          simp
        exact finished_kept nodup sorted found declared inner here pushed kept.seen (kept.noExit rfl) visits
      · exact finished_left sorted found declared here left visits

/-! ## One name -/

/-- The walk settles a name if it settles whatever the name refers to. -/
theorem settled_of_below (nodup : order.Nodup) (sorted : Sorted table)
    (inner : SettlesBelow table order x) (here : Here table order kind [x] trail stack mid rest own)
    (visits : Visits table [x] trail last) :
    Settled table order kind [x] trail last stack mid rest own := by
  rcases Orders.single_iff.mp here.orders with
    ⟨parts, before, after, above, found, prepended, included, inherited, rfl⟩
  have fresh := here.fresh nodup x (by simp)
  cases visits with
  | skip seen => exact absurd seen fresh
  | @enter _ _ parts' _ first second third _ found' _ visitsPrepended visitsIncluded visitsInherited
      remaining =>
      cases remaining
      cases found.symm.trans found'
      have herePrepended := here.toPrepended found prepended included inherited
      have settledPrepended := herePrepended.settled nodup visitsPrepended fun m same => by
        rw [same] at herePrepended visitsPrepended ⊢
        exact inner m (edge_of_mixin found (by simp [Parts.mixins, same])) _ _ _ _ _ _ _ herePrepended
          visitsPrepended
      have ofSecond := visitsInherited.order_prefix
      have ofFirst := ((List.prefix_append _ _).trans visitsIncluded.order_prefix).trans ofSecond
      by_cases keepsFirst : first.order <+: order
      swap
      · apply Settled.of_fails fun keeps => keepsFirst (ofFirst.trans keeps)
        rintro ⟨-, straight⟩
        rcases (Straight.iff_parts found).mp (straight x (List.mem_singleton_self x)) with ⟨fine, all, -⟩
        exact keepsFirst (settledPrepended.keeps_iff.mpr ⟨fine.prepended, all⟩)
      rcases settledPrepended.outcome keepsFirst with kept | left
      swap
      · exact absurd left.stack (List.cons_ne_nil _ _)
      have hereIncluded := here.toIncluded found prepended included inherited kept.pushed kept.seen
      have settledIncluded := hereIncluded.settled nodup visitsIncluded fun m same => by
        rw [same] at hereIncluded visitsIncluded ⊢
        exact inner m (edge_of_mixin found (by simp [Parts.mixins, same])) _ _ _ _ _ _ _ hereIncluded
          visitsIncluded
      by_cases keepsSecond : second.order <+: order
      swap
      · apply Settled.of_fails fun keeps => keepsSecond (ofSecond.trans keeps)
        rintro ⟨-, straight⟩
        rcases (Straight.iff_parts found).mp (straight x (List.mem_singleton_self x)) with
          ⟨fine, -, all, -⟩
        exact keepsSecond (settledIncluded.keeps_iff.mpr ⟨fine.included, all⟩)
      have outcome := settledIncluded.outcome keepsSecond
      rw [kept.pushed] at outcome
      have finished : Finished table order kind x parts trail last stack mid rest
          (before ++ x :: (after ++ above)) := by
        cases kind with
        | cls =>
            exact finished_cls sorted found inner here prepended included inherited keepsSecond outcome
              visitsInherited
        | mod =>
            cases inherited
            rw [List.append_nil] at here ⊢
            exact finished_mod nodup sorted found inner here keepsSecond outcome visitsInherited
      constructor
      · rw [finished.keeps_iff]
        rcases settledPrepended.keeps_iff.mp keepsFirst with ⟨shortPrepended, allPrepended⟩
        rcases settledIncluded.keeps_iff.mp keepsSecond with ⟨shortIncluded, allIncluded⟩
        simp only [List.length_singleton, Nat.le_refl, List.forall_mem_singleton, true_and]
        rw [Straight.iff_parts found]
        constructor
        · rintro ⟨fine, all⟩
          exact ⟨⟨shortPrepended, shortIncluded, fine⟩, allPrepended, allIncluded, all⟩
        · rintro ⟨fine, -, -, all⟩
          exact ⟨fine.inherited, all⟩
      · exact finished.outcome

/-- The walk settles every name. -/
theorem settled_of_acc (nodup : order.Nodup) (sorted : Sorted table)
    (acc : Acc (flip (Edge table)) x) (here : Here table order kind [x] trail stack mid rest own)
    (visits : Visits table [x] trail last) :
    Settled table order kind [x] trail last stack mid rest own := by
  induction acc generalizing kind trail last stack mid rest own with
  | intro x _ ih =>
      exact settled_of_below nodup sorted (fun m edge _ _ _ _ _ _ _ here visits => ih m edge here visits)
        here visits

/-- The walk of a class gives the method resolution order exactly where everything it meets is
fine. -/
theorem order_eq_iff (nodup : order.Nodup) (sorted : Sorted table) (acc : Acc (flip (Edge table)) x)
    (orders : Orders table .cls [x] order) (visits : Visits table [x] ⟨[], []⟩ last) :
    last.order = order ↔ Straight table order (.cls, x) := by
  have here : Here table order .cls [x] ⟨[], []⟩ [] [] [] order :=
    { orders := orders
      whole := by simp
      seen := by simp
      stack := nofun
      below := nofun
      above := ⟨none, .nil⟩
      ofClass := fun _ => ⟨rfl, rfl⟩
      ofModule := nofun }
  have settled := settled_of_acc nodup sorted acc here visits
  have straight_iff : Straight table order (.cls, x) ↔ last.order <+: order := by
    rw [settled.keeps_iff]
    simp
  rw [straight_iff]
  constructor
  · rintro rfl
    exact List.prefix_rfl
  · intro keeps
    rcases settled.outcome keeps with kept | left
    · exact kept.pushed
    · exact left.pushed

end Parts

end Walk

end Rigor.Library.Mixins
