import Mathlib.Logic.Relation
import Mathlib.Data.Fintype.Card
import Mathlib.Data.List.Nodup
import Mathlib.Data.Set.Finite.List

/-!
# The method resolution order

Classes and modules with mixins, as in Ruby: a prepended module stands before the class, an included
one behind it, a later one ahead of an earlier one, and the superclass at the end.  A module has no
superclass.
-/

namespace Rigor.Library.Mixins

open Relation

universe u

/-- What a class or a module is built on, in the order of the declarations. -/
structure Parts (Name : Type u) where
  prepended : List Name
  included : List Name
  inherited : Option Name

inductive Kind where
  | cls
  | mod
  deriving DecidableEq

variable {Name : Type u}

/-- Only a class has a superclass. -/
def Parts.above (parts : Parts Name) : Kind → List Name
  | .cls => parts.inherited.toList
  | .mod => []

theorem Parts.above_subset (parts : Parts Name) (kind : Kind) :
    parts.above kind ⊆ parts.inherited.toList := by
  cases kind with
  | cls => exact List.Subset.refl _
  | mod => exact List.nil_subset _

def Parts.mixins (parts : Parts Name) : List Name :=
  parts.prepended ++ parts.included

def Parts.edges (parts : Parts Name) : List Name :=
  parts.prepended ++ parts.included ++ parts.inherited.toList

/-- The orders of some names, one behind the other. -/
inductive Orders (table : Name → Option (Parts Name)) : Kind → List Name → List Name → Prop where
  | nil {kind : Kind} : Orders table kind [] []
  | cons {kind : Kind} {name : Name} {rest : List Name} {parts : Parts Name}
      {before after above others : List Name} (found : table name = some parts)
      (prepended : Orders table .mod parts.prepended.reverse before)
      (included : Orders table .mod parts.included.reverse after)
      (inherited : Orders table .cls (parts.above kind) above)
      (remaining : Orders table kind rest others) :
      Orders table kind (name :: rest) (before ++ name :: (after ++ above) ++ others)

section Table

variable {table : Name → Option (Parts Name)}

/-- Any reference of the table. -/
def Edge (table : Name → Option (Parts Name)) (x y : Name) : Prop :=
  ∃ parts, table x = some parts ∧ y ∈ parts.edges

def Mixin (table : Name → Option (Parts Name)) (x : Name) : Prop :=
  ∃ y parts, table y = some parts ∧ x ∈ parts.mixins

def Inherited (table : Name → Option (Parts Name)) (x : Name) : Prop :=
  ∃ y parts, table y = some parts ∧ parts.inherited = some x

def Inherits (table : Name → Option (Parts Name)) (x y : Name) : Prop :=
  ∃ parts, table x = some parts ∧ parts.inherited = some y

theorem edge_of_mixin {x m : Name} {parts : Parts Name} (found : table x = some parts)
    (declared : m ∈ parts.mixins) : Edge table x m :=
  ⟨parts, found, List.mem_append_left _ declared⟩

theorem edge_of_inherited {x T : Name} {parts : Parts Name} (found : table x = some parts)
    (declared : parts.inherited = some T) : Edge table x T :=
  ⟨parts, found, by simp [Parts.edges, declared]⟩

/-- A name that the table does not hold refers to nothing. -/
theorem acc_of_not_mem {keys : List Name} (whole : ∀ x, (table x).isSome = true → x ∈ keys) {x : Name}
    (outside : x ∉ keys) : Acc (flip (Edge table)) x := by
  constructor
  rintro z ⟨parts, found, -⟩
  exact absurd (whole x (by simp [found])) outside

/-- In a table of finitely many names, a walk down the references ends if none leads back. -/
theorem acc_of_acyclic {keys : List Name} (whole : ∀ x, (table x).isSome = true → x ∈ keys)
    (acyclic : ∀ x, ¬ TransGen (Edge table) x x) (x : Name) : Acc (flip (Edge table)) x := by
  have ofKeys : ∀ key : { x // x ∈ keys }, Acc (flip (Edge table)) key.1 := by
    have finite : Finite { x // x ∈ keys } := keys.finite_toSet.to_subtype
    have isTrans : IsTrans { x // x ∈ keys } fun a b => TransGen (Edge table) b.1 a.1 :=
      ⟨fun a b c first second => second.trans first⟩
    have isIrrefl : Std.Irrefl fun a b : { x // x ∈ keys } => TransGen (Edge table) b.1 a.1 :=
      ⟨fun a => acyclic a.1⟩
    have wf := Finite.wellFounded_of_trans_of_irrefl
      fun a b : { x // x ∈ keys } => TransGen (Edge table) b.1 a.1
    intro key
    induction key using wf.induction with
    | _ key ih =>
        constructor
        intro y edge
        by_cases mem : y ∈ keys
        · exact ih ⟨y, mem⟩ (.single edge)
        · exact acc_of_not_mem whole mem
  by_cases mem : x ∈ keys
  · exact ofKeys ⟨x, mem⟩
  · exact acc_of_not_mem whole mem

/-! ## Paths -/

/-- A turn of a path: the position of the mixin among its declarations, or the superclass. -/
inductive Turn where
  | prepended (position : Nat)
  | included (position : Nat)
  | inherited

/-- A path to an ancestor. -/
inductive Path (table : Name → Option (Parts Name)) : Kind → Name → List Turn → Name → Prop where
  | here {kind : Kind} {x : Name} : Path table kind x [] x
  | prepended {kind : Kind} {x m y : Name} {parts : Parts Name} {position : Nat} {turns : List Turn}
      (found : table x = some parts) (declared : parts.prepended[position]? = some m)
      (path : Path table .mod m turns y) : Path table kind x (.prepended position :: turns) y
  | included {kind : Kind} {x m y : Name} {parts : Parts Name} {position : Nat} {turns : List Turn}
      (found : table x = some parts) (declared : parts.included[position]? = some m)
      (path : Path table .mod m turns y) : Path table kind x (.included position :: turns) y
  | inherited {x m y : Name} {parts : Parts Name} {turns : List Turn}
      (found : table x = some parts) (declared : parts.inherited = some m)
      (path : Path table .cls m turns y) : Path table .cls x (.inherited :: turns) y

/-- One path at most leads to each name. -/
def Single (table : Name → Option (Parts Name)) (kind : Kind) (x : Name) : Prop :=
  ∀ y turns turns', Path table kind x turns y → Path table kind x turns' y → turns = turns'

/-- The two names have no ancestor in common. -/
def Apart (table : Name → Option (Parts Name)) (kind : Kind) (x x' : Name) : Prop :=
  ∀ y turns turns', Path table kind x turns y → ¬ Path table kind x' turns' y

namespace Single

variable {kind : Kind} {x m : Name} {parts : Parts Name}

theorem prepended (single : Single table kind x) (found : table x = some parts)
    (declared : m ∈ parts.prepended) : Single table .mod m := by
  rcases List.getElem?_of_mem declared with ⟨position, here⟩
  intro y turns turns' path path'
  exact (List.cons.inj (single y _ _ (.prepended found here path) (.prepended found here path'))).2

theorem included (single : Single table kind x) (found : table x = some parts)
    (declared : m ∈ parts.included) : Single table .mod m := by
  rcases List.getElem?_of_mem declared with ⟨position, here⟩
  intro y turns turns' path path'
  exact (List.cons.inj (single y _ _ (.included found here path) (.included found here path'))).2

theorem above (single : Single table kind x) (found : table x = some parts)
    (declared : m ∈ parts.above kind) : Single table .cls m := by
  cases kind with
  | mod => contradiction
  | cls =>
      have here := Option.mem_toList.mp declared
      intro y turns turns' path path'
      exact (List.cons.inj (single y _ _ (.inherited found here path) (.inherited found here path'))).2

theorem prepended_apart (single : Single table kind x) (found : table x = some parts) :
    parts.prepended.reverse.Pairwise (Apart table .mod) := by
  rw [List.pairwise_reverse, List.pairwise_iff_getElem]
  intro i j first second less y turns turns' path path'
  have same := single y _ _ (.prepended found (List.getElem?_eq_getElem second) path)
    (.prepended found (List.getElem?_eq_getElem first) path')
  cases same
  exact Nat.lt_irrefl _ less

theorem included_apart (single : Single table kind x) (found : table x = some parts) :
    parts.included.reverse.Pairwise (Apart table .mod) := by
  rw [List.pairwise_reverse, List.pairwise_iff_getElem]
  intro i j first second less y turns turns' path path'
  have same := single y _ _ (.included found (List.getElem?_eq_getElem second) path)
    (.included found (List.getElem?_eq_getElem first) path')
  cases same
  exact Nat.lt_irrefl _ less

end Single

namespace Path

variable {kind : Kind} {x y m : Name} {turns : List Turn}

theorem reaches (path : Path table kind x turns y) : ReflTransGen (Edge table) x y := by
  induction path with
  | here => exact .refl
  | prepended found declared path ih =>
      exact .head (edge_of_mixin found (List.mem_append_left _ (List.mem_of_getElem? declared))) ih
  | included found declared path ih =>
      exact .head (edge_of_mixin found (List.mem_append_right _ (List.mem_of_getElem? declared))) ih
  | inherited found declared path ih => exact .head (edge_of_inherited found declared) ih

variable {parts : Parts Name}

theorem of_prepended (found : table x = some parts)
    (inner : ∃ m ∈ parts.prepended.reverse, ∃ turns, Path table .mod m turns y) :
    ∃ position turns, Path table kind x (.prepended position :: turns) y := by
  rcases inner with ⟨m, inside, turns, path⟩
  rcases List.getElem?_of_mem (List.mem_reverse.mp inside) with ⟨position, declared⟩
  exact ⟨position, turns, .prepended found declared path⟩

theorem of_included (found : table x = some parts)
    (inner : ∃ m ∈ parts.included.reverse, ∃ turns, Path table .mod m turns y) :
    ∃ position turns, Path table kind x (.included position :: turns) y := by
  rcases inner with ⟨m, inside, turns, path⟩
  rcases List.getElem?_of_mem (List.mem_reverse.mp inside) with ⟨position, declared⟩
  exact ⟨position, turns, .included found declared path⟩

theorem of_above (found : table x = some parts)
    (inner : ∃ m ∈ parts.above kind, ∃ turns, Path table .cls m turns y) :
    ∃ turns, Path table kind x (.inherited :: turns) y := by
  rcases inner with ⟨m, inside, turns, path⟩
  cases kind with
  | mod => contradiction
  | cls => exact ⟨turns, .inherited found (Option.mem_toList.mp inside) path⟩

/-- A path from a module leads to modules. -/
theorem mixin (path : Path table kind x turns y) (isMod : kind = .mod) (start : Mixin table x) :
    Mixin table y := by
  induction path with
  | here => exact start
  | prepended found declared path ih =>
      exact ih rfl ⟨_, _, found, List.mem_append_left _ (List.mem_of_getElem? declared)⟩
  | included found declared path ih =>
      exact ih rfl ⟨_, _, found, List.mem_append_right _ (List.mem_of_getElem? declared)⟩
  | inherited found declared path ih => contradiction

/-- Only the superclasses lead to a class. -/
theorem eq_of_isClass (acyclic : ∀ x, ¬ TransGen (Edge table) x x) {turns' : List Turn}
    (path : Path table .cls x turns y) (path' : Path table .cls x turns' y)
    (isClass : ¬ Mixin table y) : turns = turns' := by
  have up : ∀ {x turns}, Path table .cls x turns y → (x = y ∧ turns = []) ∨ ∃ parts m rest,
      table x = some parts ∧ parts.inherited = some m ∧ Path table .cls m rest y ∧
        turns = .inherited :: rest := by
    intro x turns path
    cases path with
    | here => exact .inl ⟨rfl, rfl⟩
    | prepended found declared path =>
        exact absurd (path.mixin rfl ⟨_, _, found, List.mem_append_left _
          (List.mem_of_getElem? declared)⟩) isClass
    | included found declared path =>
        exact absurd (path.mixin rfl ⟨_, _, found, List.mem_append_right _
          (List.mem_of_getElem? declared)⟩) isClass
    | inherited found declared path => exact .inr ⟨_, _, _, found, declared, path, rfl⟩
  have noLoop : ∀ {parts m rest}, table y = some parts → parts.inherited = some m →
      ¬ Path table .cls m rest y := by
    intro parts m rest found declared path
    exact acyclic y (.head' (edge_of_inherited found declared) path.reaches)
  induction turns generalizing x turns' with
  | nil =>
      rcases up path with ⟨rfl, -⟩ | ⟨_, _, _, _, _, _, impossible⟩
      · rcases up path' with ⟨-, rfl⟩ | ⟨parts, m, rest, found, declared, path', -⟩
        · rfl
        · exact absurd path' (noLoop found declared)
      · contradiction
  | cons turn turns ih =>
      rcases up path with ⟨-, impossible⟩ | ⟨parts, m, rest, found, declared, path, same⟩
      · contradiction
      · cases same
        rcases up path' with ⟨rfl, -⟩ | ⟨parts', m', rest', found', declared', path', rfl⟩
        · exact absurd path (noLoop found declared)
        · cases found.symm.trans found'
          cases declared.symm.trans declared'
          rw [ih path path']

end Path

/-- Where one path leads to each module, one path leads to each class as well. -/
theorem Single.of_mixins {x : Name} (acyclic : ∀ x, ¬ TransGen (Edge table) x x)
    (mixins : ∀ y, Mixin table y → ∀ turns turns', Path table .cls x turns y →
      Path table .cls x turns' y → turns = turns') : Single table .cls x := by
  intro y turns turns' path path'
  by_cases isMod : Mixin table y
  · exact mixins y isMod turns turns' path path'
  · exact path.eq_of_isClass acyclic path' isMod

theorem Parts.above_pairwise {r : Name → Name → Prop} (parts : Parts Name) (kind : Kind) :
    (parts.above kind).Pairwise r := by
  cases kind with
  | mod => exact .nil
  | cls =>
      cases up : parts.inherited with
      | none => simp [Parts.above, up]
      | some U => simp [Parts.above, up]

/-! ## Orders -/

namespace Orders

variable {kind : Kind} {names order : List Name} {x y : Name}

theorem unique {order' : List Name} (orders : Orders table kind names order)
    (orders' : Orders table kind names order') : order = order' := by
  induction orders generalizing order' with
  | nil =>
      cases orders'
      rfl
  | cons found prepended included inherited remaining ihBefore ihAfter ihAbove ihOthers =>
      cases orders' with
      | cons found' prepended' included' inherited' remaining' =>
          cases found.symm.trans found'
          rw [ihBefore prepended', ihAfter included', ihAbove inherited', ihOthers remaining']

theorem append {names' order' : List Name} (orders : Orders table kind names order)
    (orders' : Orders table kind names' order') :
    Orders table kind (names ++ names') (order ++ order') := by
  induction names generalizing order with
  | nil =>
      cases orders
      exact orders'
  | cons name rest ih =>
      cases orders with
      | cons found prepended included inherited remaining =>
          rw [List.append_assoc]
          exact .cons found prepended included inherited (ih remaining)

theorem exists_of_append {names' : List Name} (orders : Orders table kind (names ++ names') order) :
    ∃ front back, order = front ++ back ∧ Orders table kind names front ∧
      Orders table kind names' back := by
  induction names generalizing order with
  | nil => exact ⟨[], order, rfl, .nil, orders⟩
  | cons name rest ih =>
      cases orders with
      | cons found prepended included inherited remaining =>
          rcases ih remaining with ⟨front, back, rfl, first, second⟩
          exact ⟨_, back, (List.append_assoc _ _ _).symm,
            .cons found prepended included inherited first, second⟩

theorem head_mem (orders : Orders table kind (x :: names) order) : x ∈ order := by
  cases orders
  simp

theorem subset (orders : Orders table kind names order) : names ⊆ order := by
  induction orders with
  | nil => exact List.Subset.refl _
  | cons found prepended included inherited remaining ihBefore ihAfter ihAbove ihOthers =>
      rw [List.cons_subset]
      exact ⟨by simp, List.Subset.trans ihOthers (List.subset_append_right _ _)⟩

/-- The order of one name. -/
theorem single_iff : Orders table kind [x] order ↔ ∃ parts before after above,
    table x = some parts ∧ Orders table .mod parts.prepended.reverse before ∧
      Orders table .mod parts.included.reverse after ∧
      Orders table .cls (parts.above kind) above ∧ order = before ++ x :: (after ++ above) := by
  constructor
  · intro orders
    cases orders with
    | cons found prepended included inherited remaining =>
        cases remaining
        exact ⟨_, _, _, _, found, prepended, included, inherited, List.append_nil _⟩
  · rintro ⟨parts, before, after, above, found, prepended, included, inherited, rfl⟩
    have none : Orders table kind [] [] := .nil
    have orders := Orders.cons found prepended included inherited none
    rw [List.append_nil] at orders
    exact orders

/-- The order of modules holds modules. -/
theorem mixin (orders : Orders table kind names order) (isMod : kind = .mod)
    (roots : ∀ m ∈ names, Mixin table m) : ∀ m ∈ order, Mixin table m := by
  induction orders with
  | nil => exact nofun
  | @cons kind name rest parts before after above others found prepended included inherited remaining
      ihBefore ihAfter ihAbove ihOthers =>
      subst isMod
      rw [List.forall_mem_cons] at roots
      have ofParts : ∀ m ∈ parts.mixins, Mixin table m := fun m mem => ⟨name, parts, found, mem⟩
      cases inherited
      intro m mem
      simp only [List.append_nil, List.mem_append, List.mem_cons] at mem
      rcases mem with (inBefore | rfl | inAfter) | inOthers
      · exact ihBefore rfl (fun m mem => ofParts m (List.mem_append_left _ (List.mem_reverse.mp mem)))
          m inBefore
      · exact roots.1
      · exact ihAfter rfl (fun m mem => ofParts m (List.mem_append_right _ (List.mem_reverse.mp mem)))
          m inAfter
      · exact ihOthers rfl roots.2 m inOthers

/-- The order of a class goes on with the order of each class it inherits from. -/
theorem suffix_of_mem {T S : Name} (orders : Orders table .cls [T] order) (mem : S ∈ order)
    (isClass : ¬ Mixin table S) : ∃ front back, order = front ++ back ∧
      Orders table .cls [S] back ∧ ReflTransGen (Inherits table) T S := by
  suffices ∀ kind names, Orders table kind names order → kind = .cls → ∀ T, names = [T] →
      S ∈ order → ∃ front back, order = front ++ back ∧ Orders table .cls [S] back ∧
        ReflTransGen (Inherits table) T S from this _ _ orders rfl T rfl mem
  clear orders mem
  intro kind names orders
  induction orders with
  | nil => exact fun _ _ impossible => nomatch impossible
  | @cons kind name rest parts before after above others found prepended included inherited remaining
      ihBefore ihAfter ihAbove ihOthers =>
      rintro rfl T ⟨⟩ mem
      cases remaining
      rw [List.append_nil] at mem ⊢
      by_cases same : S = name
      · subst same
        have whole := Orders.single_iff.mpr ⟨parts, before, after, above, found, prepended, included,
          inherited, rfl⟩
        exact ⟨[], _, (List.nil_append _).symm, whole, .refl⟩
      · have inAbove : S ∈ above := by
          simp only [List.mem_append, List.mem_cons] at mem
          rcases mem with inBefore | same' | inAfter | inAbove
          · exact absurd (prepended.mixin rfl (fun m inside => ⟨name, parts, found,
              List.mem_append_left _ (List.mem_reverse.mp inside)⟩) S inBefore) isClass
          · exact absurd same' same
          · exact absurd (included.mixin rfl (fun m inside => ⟨name, parts, found,
              List.mem_append_right _ (List.mem_reverse.mp inside)⟩) S inAfter) isClass
          · exact inAbove
        cases up : parts.inherited with
        | none =>
            rw [Parts.above, up] at inherited
            cases inherited
            contradiction
        | some U =>
            rcases ihAbove rfl U (by rw [Parts.above, up]; rfl) inAbove with
              ⟨front, back, rfl, orders, inherits⟩
            have split : before ++ name :: (after ++ (front ++ back)) =
                (before ++ name :: (after ++ front)) ++ back := by
              simp only [List.append_assoc, List.cons_append]
            exact ⟨_, back, split, orders, .head ⟨parts, found, up⟩ inherits⟩

/-- Whatever an order holds is reached by a path. -/
theorem path_of_mem (orders : Orders table kind names order) (mem : y ∈ order) :
    ∃ m ∈ names, ∃ turns, Path table kind m turns y := by
  induction orders with
  | nil => contradiction
  | @cons kind name rest parts before after above others found prepended included inherited remaining
      ihBefore ihAfter ihAbove ihOthers =>
      simp only [List.mem_append, List.mem_cons] at mem
      rcases mem with (inBefore | rfl | inAfter | inAbove) | inOthers
      · rcases Path.of_prepended found (ihBefore inBefore) with ⟨_, _, path⟩
        exact ⟨name, List.mem_cons_self, _, path⟩
      · exact ⟨y, List.mem_cons_self, _, .here⟩
      · rcases Path.of_included found (ihAfter inAfter) with ⟨_, _, path⟩
        exact ⟨name, List.mem_cons_self, _, path⟩
      · rcases Path.of_above found (ihAbove inAbove) with ⟨_, path⟩
        exact ⟨name, List.mem_cons_self, _, path⟩
      · rcases ihOthers inOthers with ⟨m, inside, turns, path⟩
        exact ⟨m, List.mem_cons_of_mem _ inside, turns, path⟩

/-- Where one path leads to each name, the parts of a name have nothing in common. -/
theorem nodup_parts {before after above : List Name} (own : Single table kind x)
    (toBefore : ∀ y ∈ before, ∃ position turns, Path table kind x (.prepended position :: turns) y)
    (toAfter : ∀ y ∈ after, ∃ position turns, Path table kind x (.included position :: turns) y)
    (toAbove : ∀ y ∈ above, ∃ turns, Path table kind x (.inherited :: turns) y)
    (beforeNodup : before.Nodup) (afterNodup : after.Nodup) (aboveNodup : above.Nodup) :
    (before ++ x :: (after ++ above)).Nodup := by
  have notBefore : x ∉ before := by
    intro mem
    rcases toBefore x mem with ⟨position, turns, path⟩
    exact List.cons_ne_nil _ _ (own x _ _ path .here)
  have notAfter : x ∉ after := by
    intro mem
    rcases toAfter x mem with ⟨position, turns, path⟩
    exact List.cons_ne_nil _ _ (own x _ _ path .here)
  have notAbove : x ∉ above := by
    intro mem
    rcases toAbove x mem with ⟨turns, path⟩
    exact List.cons_ne_nil _ _ (own x _ _ path .here)
  have beforeAfter : before.Disjoint after := by
    intro y first second
    rcases toBefore y first with ⟨position, turns, path⟩
    rcases toAfter y second with ⟨position', turns', path'⟩
    cases own y _ _ path path'
  have beforeAbove : before.Disjoint above := by
    intro y first second
    rcases toBefore y first with ⟨position, turns, path⟩
    rcases toAbove y second with ⟨turns', path'⟩
    cases own y _ _ path path'
  have afterAbove : after.Disjoint above := by
    intro y first second
    rcases toAfter y first with ⟨position, turns, path⟩
    rcases toAbove y second with ⟨turns', path'⟩
    cases own y _ _ path path'
  have tail : (x :: (after ++ above)).Nodup := by
    rw [List.nodup_cons, List.mem_append, not_or]
    exact ⟨⟨notAfter, notAbove⟩, afterNodup.append aboveNodup afterAbove⟩
  apply beforeNodup.append tail
  rw [List.disjoint_cons_right, List.disjoint_append_right]
  exact ⟨notBefore, beforeAfter, beforeAbove⟩

/-- Where one path leads to each name, the order holds each name once. -/
theorem nodup (orders : Orders table kind names order)
    (single : ∀ m ∈ names, Single table kind m) (apart : names.Pairwise (Apart table kind)) :
    order.Nodup := by
  induction orders with
  | nil => exact List.nodup_nil
  | @cons kind name rest parts before after above others found prepended included inherited remaining
      ihBefore ihAfter ihAbove ihOthers =>
      rw [List.forall_mem_cons] at single
      rw [List.pairwise_cons] at apart
      have own := single.1
      have beforeNodup := ihBefore (fun m mem => own.prepended found (List.mem_reverse.mp mem))
        (own.prepended_apart found)
      have afterNodup := ihAfter (fun m mem => own.included found (List.mem_reverse.mp mem))
        (own.included_apart found)
      have aboveNodup := ihAbove (fun m mem => own.above found mem) (parts.above_pairwise kind)
      have whole : (before ++ name :: (after ++ above)).Nodup := nodup_parts own
        (fun y mem => Path.of_prepended found (prepended.path_of_mem mem))
        (fun y mem => Path.of_included found (included.path_of_mem mem))
        (fun y mem => Path.of_above found (inherited.path_of_mem mem)) beforeNodup afterNodup aboveNodup
      apply whole.append (ihOthers single.2 apart.2)
      intro y mem inOthers
      have orders : Orders table kind [name] (before ++ name :: (after ++ above)) :=
        single_iff.mpr ⟨_, _, _, _, found, prepended, included, inherited, rfl⟩
      rcases orders.path_of_mem mem with ⟨m, inside, turns, path⟩
      cases List.mem_singleton.mp inside
      rcases remaining.path_of_mem inOthers with ⟨m', inside', turns', path'⟩
      exact apart.1 m' inside' y turns turns' path path'

theorem exists_of_forall (all : ∀ m ∈ names, ∃ order, Orders table kind [m] order) :
    ∃ order, Orders table kind names order := by
  induction names with
  | nil => exact ⟨[], .nil⟩
  | cons m rest ih =>
      rw [List.forall_mem_cons] at all
      rcases all.1 with ⟨first, orders⟩
      rcases ih all.2 with ⟨others, remaining⟩
      exact ⟨first ++ others, orders.append remaining⟩

/-- Where all references are loaded and none leads back, a name has an order. -/
theorem exists_single (loaded : ∀ x y, Edge table x y → (table y).isSome = true)
    (acc : Acc (flip (Edge table)) x) (here : (table x).isSome = true) (kind : Kind) :
    ∃ order, Orders table kind [x] order := by
  induction acc generalizing kind with
  | intro x _ ih =>
      rcases Option.isSome_iff_exists.mp here with ⟨parts, found⟩
      have inner : ∀ kind, ∀ m ∈ parts.edges, ∃ order, Orders table kind [m] order := by
        intro kind m mem
        have edge : Edge table x m := ⟨parts, found, mem⟩
        exact ih m edge (loaded x m edge) kind
      have prepended : ∃ order, Orders table .mod parts.prepended.reverse order :=
        exists_of_forall fun m mem => inner .mod m (by simp [Parts.edges, List.mem_reverse.mp mem])
      have included : ∃ order, Orders table .mod parts.included.reverse order :=
        exists_of_forall fun m mem => inner .mod m (by simp [Parts.edges, List.mem_reverse.mp mem])
      have inherited : ∃ order, Orders table .cls (parts.above kind) order :=
        exists_of_forall fun m mem => inner .cls m (List.mem_append_right _ (parts.above_subset kind mem))
      rcases prepended with ⟨before, prepended⟩
      rcases included with ⟨after, included⟩
      rcases inherited with ⟨above, inherited⟩
      exact ⟨_, single_iff.mpr
        ⟨parts, before, after, above, found, prepended, included, inherited, rfl⟩⟩

end Orders

end Table

end Rigor.Library.Mixins
