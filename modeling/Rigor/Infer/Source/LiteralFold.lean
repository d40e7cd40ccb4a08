import Rigor.Library.Equations
import Rigor.Library.Fuel
import Rigor.Library.Grouping
import Rigor.Types.Ty

/-!
# The interprocedural literal fold

The tail of a method body folds to a literal if the methods that it calls do.  The fold
keeps what it computed for each method, declines where a method is already being folded,
and goes through the methods in the order of a hash map.  Whatever the order, the result is
the least solution of the equations that the tails stand for.
-/

namespace Rigor.Infer.Source

open Rigor.Types (Scalar)
open Rigor.Library

inductive DefKind where
  | inst
  | singleton
  deriving DecidableEq

/-- The owner, the name and the kind of a method. -/
abbrev MethodKey :=
  Text × Text × DefKind

/-- `FoldTail` with the shapes of `FoldExpr`. -/
inductive FoldTail where
  | decline
  | scalar (value : Scalar)
  | selfCall (method : Text)
  | constCall (owner method : Text)
  | not (operand : FoldTail)
  | coreCall (recv : FoldTail) (method : Text) (args : List FoldTail)

structure FoldSite where
  tail : FoldTail
  hasExplicitReturn : Bool

abbrev FoldDefs :=
  MethodKey → Option (List FoldSite)

/-- What the fold reads of the merged index and of the core folds. -/
structure FoldIndex where
  preEvalDefinesName : Text → Bool
  resolveSingletonSlot : Text → Text → Option (Text × DefKind)
  resolveInstanceOwner : Text → Text → Option Text
  overriddenInProject : Text → Text → DefKind → Bool
  fold : Scalar → Text → List Scalar → Option Scalar

namespace FoldIndex

/-- The method that an implicit-self call means. -/
def resolveSelf (index : FoldIndex) (selfQual : Text) (selfKind : DefKind) (method : Text) :
    Option MethodKey :=
  match selfKind with
  | .singleton => (index.resolveSingletonSlot selfQual method).map fun (owner, kind) =>
      (owner, method, kind)
  | .inst => (index.resolveInstanceOwner selfQual method).map fun owner => (owner, method, .inst)

end FoldIndex

/-! ## The fold with its memo -/

abbrev FoldMemo :=
  MethodKey → Option (Option Scalar)

/-- A step of the fold: the new memo and what it yields, or out of fuel. -/
abbrev FoldRun (α : Type) :=
  FoldMemo → Option (FoldMemo × Option α)

namespace FoldRun

variable {α β : Type}

/-- Goes on where a fold yields a value, as `?` does. -/
def andThen (run : FoldRun α) (next : α → FoldRun β) : FoldRun β :=
  fun memo =>
    match run memo with
    | none => none
    | some (memo, none) => some (memo, none)
    | some (memo, some value) => next value memo

def yield (value : Option α) : FoldRun α :=
  fun memo => some (memo, value)

end FoldRun

section Fold

variable (index : FoldIndex)

mutual

/-- Folds a captured tail; `call` folds another method. -/
def foldTail (call : MethodKey → FoldRun Scalar) (selfQual : Text) (selfKind : DefKind) :
    FoldTail → FoldRun Scalar
  | .decline => .yield none
  | .scalar value => .yield (some value)
  | .selfCall method =>
      match index.resolveSelf selfQual selfKind method with
      | none => .yield none
      | some key => call key
  | .constCall owner method => call (owner, method, .singleton)
  | .not operand =>
      (foldTail call selfQual selfKind operand).andThen fun value =>
        .yield (index.fold value "!".toList [])
  | .coreCall recv method args =>
      (foldTail call selfQual selfKind recv).andThen fun recv =>
        (foldArgs call selfQual selfKind args).andThen fun args =>
          .yield (index.fold recv method args)

def foldArgs (call : MethodKey → FoldRun Scalar) (selfQual : Text) (selfKind : DefKind) :
    List FoldTail → FoldRun (List Scalar)
  | [] => .yield (some [])
  | arg :: args =>
      (foldTail call selfQual selfKind arg).andThen fun value =>
        (foldArgs call selfQual selfKind args).andThen fun values =>
          .yield (some (value :: values))

end

/-- The sites must agree on one literal. -/
def foldSites (call : MethodKey → FoldRun Scalar) (selfQual : Text) (selfKind : DefKind) :
    List FoldSite → Option Scalar → FoldRun Scalar
  | [], acc => .yield acc
  | site :: sites, acc =>
      if site.hasExplicitReturn then .yield none
      else
        (foldTail index call selfQual selfKind site.tail).andThen fun value =>
          match acc with
          | none => foldSites call selfQual selfKind sites (some value)
          | some prev =>
              if prev = value then foldSites call selfQual selfKind sites acc else .yield none

def foldKeySites (defs : FoldDefs) (call : MethodKey → FoldRun Scalar) (key : MethodKey) :
    FoldRun Scalar :=
  match defs key with
  | none => .yield none
  | some sites => foldSites index call key.1 key.2.2 sites none

/-- `resolve_fold_key`.  A key that is being folded declines without a memo. -/
def resolveFoldKey (defs : FoldDefs) : Nat → List MethodKey → MethodKey → FoldRun Scalar
  | 0, _, _, _ => none
  | fuel + 1, visiting, key, memo =>
      match memo key with
      | some value => some (memo, value)
      | none =>
          if index.preEvalDefinesName key.2.1 then some (memo, none)
          else if key ∈ visiting then some (memo, none)
          else
            (foldKeySites index defs (resolveFoldKey defs fuel (key :: visiting)) key memo).map
              fun (memo, raw) =>
                let result :=
                  if raw.isSome && index.overriddenInProject key.1 key.2.1 key.2.2 then none
                  else raw
                (Function.update memo key (some result), result)

/-- The memo after all keys, in the order in which they are visited. -/
def foldAll (defs : FoldDefs) (fuel : Nat) : List MethodKey → FoldMemo → Option FoldMemo
  | [], memo => some memo
  | key :: keys, memo =>
      match resolveFoldKey index defs fuel [] key memo with
      | none => none
      | some (memo, _) => foldAll defs fuel keys memo

/-- `compute_literal_returns`: the literals that the memo holds. -/
def computeLiteralReturns (defs : FoldDefs) (fuel : Nat) (order : List MethodKey) :
    Option (MethodKey → Option Scalar) :=
  (foldAll index defs fuel order fun _ => none).map fun memo key => (memo key).join

end Fold

/-! ## The equations -/

mutual

/-- The methods that a tail calls. -/
def callsOf (index : FoldIndex) (selfQual : Text) (selfKind : DefKind) : FoldTail → List MethodKey
  | .decline | .scalar _ => []
  | .selfCall method => (index.resolveSelf selfQual selfKind method).toList
  | .constCall owner method => [(owner, method, .singleton)]
  | .not operand => callsOf index selfQual selfKind operand
  | .coreCall recv _ args =>
      callsOf index selfQual selfKind recv ++ callsOfArgs index selfQual selfKind args

def callsOfArgs (index : FoldIndex) (selfQual : Text) (selfKind : DefKind) :
    List FoldTail → List MethodKey
  | [] => []
  | arg :: args => callsOf index selfQual selfKind arg ++ callsOfArgs index selfQual selfKind args

end

mutual

/-- The literal of a tail where some methods have literals. -/
def tailValue (index : FoldIndex) (values : MethodKey → Option Scalar) (selfQual : Text)
    (selfKind : DefKind) : FoldTail → Option Scalar
  | .decline => none
  | .scalar value => some value
  | .selfCall method => (index.resolveSelf selfQual selfKind method).bind values
  | .constCall owner method => values (owner, method, .singleton)
  | .not operand =>
      (tailValue index values selfQual selfKind operand).bind fun value =>
        index.fold value "!".toList []
  | .coreCall recv method args =>
      (tailValue index values selfQual selfKind recv).bind fun recv =>
        (argValues index values selfQual selfKind args).bind fun args => index.fold recv method args

def argValues (index : FoldIndex) (values : MethodKey → Option Scalar) (selfQual : Text)
    (selfKind : DefKind) : List FoldTail → Option (List Scalar)
  | [] => some []
  | arg :: args =>
      (tailValue index values selfQual selfKind arg).bind fun value =>
        (argValues index values selfQual selfKind args).map fun rest => value :: rest

end

def siteValue (index : FoldIndex) (values : MethodKey → Option Scalar) (key : MethodKey)
    (site : FoldSite) : Option Scalar :=
  if site.hasExplicitReturn then none else tailValue index values key.1 key.2.2 site.tail

/-- The literal on which all sites agree with what came before. -/
def sitesValue (index : FoldIndex) (values : MethodKey → Option Scalar) (key : MethodKey) :
    List FoldSite → Option Scalar → Option Scalar
  | [], acc => acc
  | site :: sites, acc =>
      (siteValue index values key site).bind fun value =>
        match acc with
        | none => sitesValue index values key sites (some value)
        | some prev => if prev = value then sitesValue index values key sites acc else none

/-- The equation of a method: it has at least one site, no site has an explicit return, every
site folds to the value, no patch of the name may run instead, and nothing overrides it. -/
structure Equation (index : FoldIndex) (defs : FoldDefs) (values : MethodKey → Option Scalar)
    (key : MethodKey) (value : Scalar) : Prop where
  unpatched : index.preEvalDefinesName key.2.1 = false
  final : index.overriddenInProject key.1 key.2.1 key.2.2 = false
  agrees : ∃ sites, defs key = some sites ∧ sites ≠ [] ∧ ∀ site ∈ sites,
    site.hasExplicitReturn = false ∧ tailValue index values key.1 key.2.2 site.tail = some value

variable {index : FoldIndex} {f g : MethodKey → Option Scalar} {selfQual : Text}
  {selfKind : DefKind}

mutual

/-- A tail reads the methods that it calls. -/
theorem tailValue_mono (tail : FoldTail)
    (within : ∀ called ∈ callsOf index selfQual selfKind tail, ∀ value,
      f called = some value → g called = some value) (value : Scalar)
    (found : tailValue index f selfQual selfKind tail = some value) :
    tailValue index g selfQual selfKind tail = some value := by
  match tail with
  | .decline => simp [tailValue] at found
  | .scalar literal => exact found
  | .selfCall method =>
      rw [tailValue] at found ⊢
      rw [callsOf] at within
      rcases resolved : index.resolveSelf selfQual selfKind method with _ | key
      · simp [resolved] at found
      · rw [resolved] at found within
        exact within key (by simp) value found
  | .constCall owner method =>
      rw [tailValue] at found ⊢
      exact within _ (by simp [callsOf]) value found
  | .not operand =>
      rw [tailValue, Option.bind_eq_some_iff] at found ⊢
      obtain ⟨inner, folded, rest⟩ := found
      rw [callsOf] at within
      exact ⟨inner, tailValue_mono operand within inner folded, rest⟩
  | .coreCall recv method args =>
      rw [tailValue, Option.bind_eq_some_iff] at found ⊢
      obtain ⟨recv', folded, rest⟩ := found
      obtain ⟨args', foldedArgs, rest⟩ := Option.bind_eq_some_iff.mp rest
      rw [callsOf] at within
      refine ⟨recv', tailValue_mono recv (fun called mem => within called ?_) recv' folded, ?_⟩
      · exact List.mem_append_left _ mem
      · rw [Option.bind_eq_some_iff]
        refine ⟨args', argValues_mono args (fun called mem => within called ?_) args' foldedArgs, rest⟩
        exact List.mem_append_right _ mem

theorem argValues_mono (args : List FoldTail)
    (within : ∀ called ∈ callsOfArgs index selfQual selfKind args, ∀ value,
      f called = some value → g called = some value) (values : List Scalar)
    (found : argValues index f selfQual selfKind args = some values) :
    argValues index g selfQual selfKind args = some values := by
  match args with
  | [] => exact found
  | arg :: args =>
      rw [argValues, Option.bind_eq_some_iff] at found ⊢
      obtain ⟨value, folded, rest⟩ := found
      obtain ⟨values', foldedArgs, rfl⟩ := Option.map_eq_some_iff.mp rest
      rw [callsOfArgs] at within
      refine ⟨value, tailValue_mono arg (fun called mem => within called ?_) value folded, ?_⟩
      · exact List.mem_append_left _ mem
      · rw [Option.map_eq_some_iff]
        refine ⟨values', argValues_mono args (fun called mem => within called ?_) values' foldedArgs, rfl⟩
        exact List.mem_append_right _ mem

end

mutual

/-- A tail folds only if all methods that it calls do. -/
theorem tailValue_strict (tail : FoldTail) {value : Scalar}
    (found : tailValue index f selfQual selfKind tail = some value) :
    ∀ called ∈ callsOf index selfQual selfKind tail, (f called).isSome = true := by
  match tail with
  | .decline => simp [tailValue] at found
  | .scalar literal => simp [callsOf]
  | .selfCall method =>
      rw [tailValue, Option.bind_eq_some_iff] at found
      obtain ⟨key, resolved, found⟩ := found
      simp [callsOf, resolved, found]
  | .constCall owner method =>
      rw [tailValue] at found
      simp [callsOf, found]
  | .not operand =>
      rw [tailValue, Option.bind_eq_some_iff] at found
      obtain ⟨inner, folded, -⟩ := found
      rw [callsOf]
      exact tailValue_strict operand folded
  | .coreCall recv method args =>
      rw [tailValue, Option.bind_eq_some_iff] at found
      obtain ⟨recv', folded, rest⟩ := found
      obtain ⟨args', foldedArgs, -⟩ := Option.bind_eq_some_iff.mp rest
      intro called mem
      rw [callsOf, List.mem_append] at mem
      rcases mem with mem | mem
      · exact tailValue_strict recv folded called mem
      · exact argValues_strict args foldedArgs called mem

theorem argValues_strict (args : List FoldTail) {values : List Scalar}
    (found : argValues index f selfQual selfKind args = some values) :
    ∀ called ∈ callsOfArgs index selfQual selfKind args, (f called).isSome = true := by
  match args with
  | [] => simp [callsOfArgs]
  | arg :: args =>
      rw [argValues, Option.bind_eq_some_iff] at found
      obtain ⟨value, folded, rest⟩ := found
      obtain ⟨values', foldedArgs, -⟩ := Option.map_eq_some_iff.mp rest
      intro called mem
      rw [callsOfArgs, List.mem_append] at mem
      rcases mem with mem | mem
      · exact tailValue_strict arg folded called mem
      · exact argValues_strict args foldedArgs called mem

end

theorem siteValue_eq_some_iff {key : MethodKey} {site : FoldSite} {value : Scalar} :
    siteValue index f key site = some value ↔
      site.hasExplicitReturn = false ∧ tailValue index f key.1 key.2.2 site.tail = some value := by
  rw [siteValue]
  cases site.hasExplicitReturn <;> simp

theorem sitesValue_cons_some (key : MethodKey) (site : FoldSite) (sites : List FoldSite)
    (prev : Scalar) : sitesValue index f key (site :: sites) (some prev) =
      (siteValue index f key site).bind fun value =>
        if prev = value then sitesValue index f key sites (some prev) else none :=
  rfl

theorem sitesValue_some_iff {key : MethodKey} {sites : List FoldSite} {prev value : Scalar} :
    sitesValue index f key sites (some prev) = some value ↔
      prev = value ∧ ∀ site ∈ sites, siteValue index f key site = some value := by
  induction sites with
  | nil => simp [sitesValue]
  | cons site sites ih =>
      rw [sitesValue_cons_some, Option.bind_eq_some_iff, List.forall_mem_cons]
      constructor
      · rintro ⟨value', found, rest⟩
        by_cases same : prev = value'
        · rw [if_pos same, ih] at rest
          obtain ⟨rfl, others⟩ := rest
          exact ⟨rfl, same ▸ found, others⟩
        · simp [same] at rest
      · rintro ⟨rfl, found, others⟩
        exact ⟨prev, found, by rw [if_pos rfl, ih]; exact ⟨rfl, others⟩⟩

theorem sitesValue_none_iff {key : MethodKey} {sites : List FoldSite} {value : Scalar} :
    sitesValue index f key sites none = some value ↔
      sites ≠ [] ∧ ∀ site ∈ sites, siteValue index f key site = some value := by
  cases sites with
  | nil => simp [sitesValue]
  | cons site sites =>
      rw [sitesValue, Option.bind_eq_some_iff, List.forall_mem_cons]
      constructor
      · rintro ⟨value', found, rest⟩
        obtain ⟨rfl, others⟩ := sitesValue_some_iff.mp rest
        exact ⟨List.cons_ne_nil _ _, found, others⟩
      · rintro ⟨-, found, others⟩
        exact ⟨value, found, sitesValue_some_iff.mpr ⟨rfl, others⟩⟩

/-- The value that the equation of a method gives. -/
def keyValue (index : FoldIndex) (defs : FoldDefs) (values : MethodKey → Option Scalar)
    (key : MethodKey) : Option Scalar :=
  if index.preEvalDefinesName key.2.1 || index.overriddenInProject key.1 key.2.1 key.2.2 then none
  else (defs key).bind fun sites => sitesValue index values key sites none

theorem keyValue_eq_some_iff {defs : FoldDefs} {key : MethodKey} {value : Scalar} :
    keyValue index defs f key = some value ↔ Equation index defs f key value := by
  rw [keyValue]
  constructor
  · intro found
    split at found
    · simp at found
    · rename_i free
      simp only [Bool.or_eq_true, not_or, Bool.not_eq_true] at free
      obtain ⟨sites, defined, found⟩ := Option.bind_eq_some_iff.mp found
      obtain ⟨nonempty, agree⟩ := sitesValue_none_iff.mp found
      exact ⟨free.1, free.2, sites, defined, nonempty, fun site mem =>
        siteValue_eq_some_iff.mp (agree site mem)⟩
  · rintro ⟨unpatched, final, sites, defined, nonempty, agree⟩
    rw [unpatched, final, defined, if_neg (by simp), Option.bind_some]
    exact sitesValue_none_iff.mpr ⟨nonempty, fun site mem =>
      siteValue_eq_some_iff.mpr (agree site mem)⟩

/-- The equations of all methods. -/
def foldEquations (index : FoldIndex) (defs : FoldDefs) : Equations MethodKey Scalar where
  uses key := ((defs key).getD []).flatMap fun site => callsOf index key.1 key.2.2 site.tail
  step := keyValue index defs
  mono := by
    intro f g key within value found
    rw [keyValue_eq_some_iff] at found ⊢
    obtain ⟨unpatched, final, sites, defined, nonempty, agree⟩ := found
    refine ⟨unpatched, final, sites, defined, nonempty, fun site mem => ?_⟩
    refine ⟨(agree site mem).1, tailValue_mono site.tail (fun called isCalled => ?_) value
      (agree site mem).2⟩
    exact within called (List.mem_flatMap.mpr ⟨site, by simpa [defined] using mem, isCalled⟩)
  strict := by
    intro f key value found used mem
    obtain ⟨-, -, sites, defined, -, agree⟩ := keyValue_eq_some_iff.mp found
    obtain ⟨site, isSite, isCalled⟩ := List.mem_flatMap.mp mem
    exact tailValue_strict site.tail (agree site (by simpa [defined] using isSite)).2 used isCalled

/-! ## Runs of the fold -/

section Runs

variable {defs : FoldDefs} {α β : Type}

/-- The memo holds the least solution. -/
def Right (index : FoldIndex) (defs : FoldDefs) (memo : FoldMemo) : Prop :=
  ∀ key value, memo key = some value → value = (foldEquations index defs).least key

/-- The second memo has entries for all keys of the first. -/
def Grows (before after : FoldMemo) : Prop :=
  ∀ key, (before key).isSome = true → (after key).isSome = true

/-- From a right memo the step ends with a value and a right memo. -/
def Yields (index : FoldIndex) (defs : FoldDefs) (run : FoldRun α) (value : Option α) : Prop :=
  ∀ memo, Right index defs memo → ∃ after, run memo = some (after, value) ∧
    Right index defs after ∧ Grows memo after

theorem yields_yield (value : Option α) : Yields index defs (.yield value) value :=
  fun memo right => ⟨memo, rfl, right, fun _ defined => defined⟩

theorem Yields.andThen {run : FoldRun α} {value : Option α} {next : α → FoldRun β}
    {rest : α → Option β} (yields : Yields index defs run value)
    (yieldsNext : ∀ found, value = some found → Yields index defs (next found) (rest found)) :
    Yields index defs (run.andThen next) (value.bind rest) := by
  intro memo right
  obtain ⟨middle, ran, right, grows⟩ := yields memo right
  cases value with
  | none => exact ⟨middle, by rw [FoldRun.andThen, ran]; rfl, right, grows⟩
  | some found =>
      obtain ⟨after, ranNext, right, growsNext⟩ := yieldsNext found rfl middle right
      refine ⟨after, ?_, right, fun key defined => growsNext key (grows key defined)⟩
      rw [FoldRun.andThen, ran]
      exact ranNext

variable {call : MethodKey → FoldRun Scalar} {values : MethodKey → Option Scalar}

mutual

theorem yields_foldTail (tail : FoldTail)
    (calls : ∀ called ∈ callsOf index selfQual selfKind tail,
      Yields index defs (call called) (values called)) :
    Yields index defs (foldTail index call selfQual selfKind tail)
      (tailValue index values selfQual selfKind tail) := by
  match tail with
  | .decline => exact yields_yield none
  | .scalar value => exact yields_yield (some value)
  | .selfCall method =>
      rw [foldTail, tailValue]
      rcases resolved : index.resolveSelf selfQual selfKind method with _ | key
      · exact yields_yield none
      · exact calls key (by simp [callsOf, resolved])
  | .constCall owner method =>
      rw [foldTail, tailValue]
      exact calls _ (by simp [callsOf])
  | .not operand =>
      rw [foldTail, tailValue]
      rw [callsOf] at calls
      exact (yields_foldTail operand calls).andThen fun value _ => yields_yield _
  | .coreCall recv method args =>
      rw [foldTail, tailValue]
      rw [callsOf] at calls
      apply (yields_foldTail recv fun called mem => calls called (List.mem_append_left _ mem)).andThen
      intro recv' _
      apply (yields_foldArgs args fun called mem => calls called (List.mem_append_right _ mem)).andThen
      exact fun args' _ => yields_yield _

theorem yields_foldArgs (args : List FoldTail)
    (calls : ∀ called ∈ callsOfArgs index selfQual selfKind args,
      Yields index defs (call called) (values called)) :
    Yields index defs (foldArgs index call selfQual selfKind args)
      (argValues index values selfQual selfKind args) := by
  match args with
  | [] => exact yields_yield (some [])
  | arg :: args =>
      rw [foldArgs, argValues]
      rw [callsOfArgs] at calls
      apply (yields_foldTail arg fun called mem => calls called (List.mem_append_left _ mem)).andThen
      intro value _
      rw [Option.map_eq_bind]
      apply (yields_foldArgs args fun called mem => calls called (List.mem_append_right _ mem)).andThen
      exact fun rest _ => yields_yield _

end

theorem yields_foldSites (key : MethodKey) (sites : List FoldSite)
    (calls : ∀ site ∈ sites, ∀ called ∈ callsOf index key.1 key.2.2 site.tail,
      Yields index defs (call called) (values called)) (acc : Option Scalar) :
    Yields index defs (foldSites index call key.1 key.2.2 sites acc)
      (sitesValue index values key sites acc) := by
  induction sites generalizing acc with
  | nil => exact yields_yield acc
  | cons site sites ih =>
      have rest := ih fun other mem => calls other (List.mem_cons_of_mem _ mem)
      rw [foldSites, sitesValue, siteValue]
      cases site.hasExplicitReturn with
      | true => exact yields_yield none
      | false =>
          apply (yields_foldTail site.tail (calls site List.mem_cons_self)).andThen
          intro value _
          cases acc with
          | none => exact rest (some value)
          | some prev =>
              by_cases same : prev = value
              · simp only [if_pos same]
                exact rest (some prev)
              · simp only [if_neg same]
                exact yields_yield none

/-- The methods that are not being folded yet. -/
def unvisited (keys visiting : List MethodKey) : Nat :=
  keys.countP fun key => decide (key ∉ visiting)

theorem unvisited_cons_lt {keys visiting : List MethodKey} {key : MethodKey} (mem : key ∈ keys)
    (fresh : key ∉ visiting) : unvisited keys (key :: visiting) < unvisited keys visiting := by
  refine Grouping.countP_lt_countP ?_ mem ?_ ?_
  · intro other _ new
    simp only [List.mem_cons, not_or, decide_eq_true_eq] at new ⊢
    exact new.2
  · simpa using fresh
  · simp

theorem least_eq (key : MethodKey) : (foldEquations index defs).least key =
    keyValue index defs (foldEquations index defs).least key :=
  (congrFun Equations.least_solution key).symm

theorem least_of_undefined {key : MethodKey} (undefined : defs key = none) :
    (foldEquations index defs).least key = none := by
  rw [least_eq, keyValue, undefined]
  split <;> rfl

theorem least_of_patched {key : MethodKey} (patched : index.preEvalDefinesName key.2.1 = true) :
    (foldEquations index defs).least key = none := by
  rw [least_eq, keyValue, patched, Bool.true_or, if_pos rfl]

/-- A method folds to its value in the least solution.  The methods that are being folded lead
to it, so if it is one of them it is on a cycle. -/
theorem yields_resolveFoldKey {keys : List MethodKey}
    (all : ∀ key sites, defs key = some sites → key ∈ keys) (fuel : Nat)
    (visiting : List MethodKey) (key : MethodKey)
    (leads : ∀ outer ∈ visiting, Relation.TransGen (foldEquations index defs).Uses outer key)
    (enough : unvisited keys visiting < fuel) :
    Yields index defs (resolveFoldKey index defs fuel visiting key)
      ((foldEquations index defs).least key) := by
  induction fuel generalizing visiting key with
  | zero => omega
  | succ fuel ih =>
      intro memo right
      rw [resolveFoldKey]
      rcases hit : memo key with _ | value
      · by_cases patched : index.preEvalDefinesName key.2.1 = true
        · refine ⟨memo, ?_, right, fun _ defined => defined⟩
          rw [least_of_patched patched]
          exact if_pos patched
        · by_cases visited : key ∈ visiting
          · have absent : (foldEquations index defs).least key = none :=
              Equations.least_of_reachesCycle ⟨key, .refl, leads key visited⟩
            refine ⟨memo, ?_, right, fun _ defined => defined⟩
            rw [absent]
            simp only [if_neg patched, if_pos visited]
          · have sites : Yields index defs
                (foldKeySites index defs (resolveFoldKey index defs fuel (key :: visiting)) key)
                ((defs key).bind fun sites =>
                  sitesValue index (foldEquations index defs).least key sites none) := by
              rw [foldKeySites]
              rcases defined : defs key with _ | sites
              · exact yields_yield none
              · apply yields_foldSites
                intro site isSite called isCalled
                have uses : (foldEquations index defs).Uses key called :=
                  List.mem_flatMap.mpr ⟨site, by simpa [defined] using isSite, isCalled⟩
                apply ih
                · intro outer mem
                  rcases List.mem_cons.mp mem with rfl | mem
                  · exact .single uses
                  · exact (leads outer mem).tail uses
                · have fewer := unvisited_cons_lt (all key sites defined) visited
                  omega
            obtain ⟨middle, ran, rightMiddle, grows⟩ := sites memo right
            have result : (foldEquations index defs).least key = _ := least_eq key
            rw [keyValue, Bool.eq_false_iff.mpr patched, Bool.false_or] at result
            simp only [if_neg patched, if_neg visited, ran, Option.map_some]
            set raw := (defs key).bind fun sites =>
              sitesValue index (foldEquations index defs).least key sites none
            have same : (if (raw.isSome && index.overriddenInProject key.1 key.2.1 key.2.2) = true
                then none else raw) = (foldEquations index defs).least key := by
              rw [result]
              cases index.overriddenInProject key.1 key.2.1 key.2.2 <;> cases raw <;> rfl
            rw [same]
            refine ⟨_, rfl, ?_, ?_⟩
            · intro other value found
              by_cases equal : other = key
              · subst equal
                simpa using found.symm
              · exact rightMiddle other value (by simpa [equal] using found)
            · intro other defined
              by_cases equal : other = key
              · simp [equal]
              · simpa [equal] using grows other defined
      · exact ⟨memo, by rw [right key value hit], right, fun _ defined => defined⟩

/-- A method that is not being folded is in the memo afterwards, unless a patch names it. -/
theorem resolveFoldKey_defined {fuel : Nat} {key : MethodKey} {memo after : FoldMemo}
    {value : Option Scalar} (ran : resolveFoldKey index defs fuel [] key memo = some (after, value))
    (unpatched : index.preEvalDefinesName key.2.1 = false) : (after key).isSome = true := by
  cases fuel with
  | zero => simp [resolveFoldKey] at ran
  | succ fuel =>
      rw [resolveFoldKey] at ran
      rcases hit : memo key with _ | value'
      · simp only [hit, unpatched, Bool.false_eq_true, if_false, List.not_mem_nil,
          Option.map_eq_some_iff, Prod.mk.injEq] at ran
        obtain ⟨middle, -, rfl, -⟩ := ran
        simp
      · simp only [hit, Option.some.injEq, Prod.mk.injEq] at ran
        simp [← ran.1, hit]

theorem foldAll_spec {keys : List MethodKey}
    (all : ∀ key sites, defs key = some sites → key ∈ keys) {fuel : Nat}
    (enough : keys.length < fuel) (order : List MethodKey) (memo : FoldMemo)
    (right : Right index defs memo) : ∃ after, foldAll index defs fuel order memo = some after ∧
      Right index defs after ∧ Grows memo after ∧ ∀ key ∈ order,
        index.preEvalDefinesName key.2.1 = false → (after key).isSome = true := by
  induction order generalizing memo with
  | nil => exact ⟨memo, rfl, right, fun _ defined => defined, by simp⟩
  | cons key order ih =>
      have visits : unvisited keys [] < fuel := by
        have bound : unvisited keys [] ≤ keys.length := List.countP_le_length
        omega
      obtain ⟨middle, ran, rightMiddle, grows⟩ :=
        yields_resolveFoldKey all fuel [] key (by simp) visits memo right
      obtain ⟨after, ranRest, rightAfter, growsRest, defined⟩ := ih middle rightMiddle
      refine ⟨after, ?_, rightAfter, fun other found => growsRest other (grows other found), ?_⟩
      · rw [foldAll, ran]
        exact ranRest
      · intro other mem unpatched
        rcases List.mem_cons.mp mem with rfl | mem
        · exact growsRest other (resolveFoldKey_defined ran unpatched)
        · exact defined other mem unpatched

/-- With enough fuel the table is the least solution of the equations. -/
theorem returns_computeLiteralReturns {order : List MethodKey}
    (all : ∀ key, key ∈ order ↔ (defs key).isSome = true) :
    Fuel.Returns (fun fuel => computeLiteralReturns index defs fuel order)
      (foldEquations index defs).least := by
  refine ⟨order.length, fun fuel enough => ?_⟩
  obtain ⟨after, ran, right, -, defined⟩ := foldAll_spec
    (fun key sites found => (all key).mpr (Option.isSome_of_eq_some found)) enough order
    (fun _ => none) fun _ _ impossible => nomatch impossible
  change computeLiteralReturns index defs fuel order = _
  rw [computeLiteralReturns, ran, Option.map_some, Option.some.injEq]
  funext key
  rcases found : after key with _ | value
  · rcases patched : index.preEvalDefinesName key.2.1 with _ | _
    · have notMem : key ∉ order := by
        intro mem
        have inMemo := defined key mem patched
        simp [found] at inMemo
      rw [all, Bool.not_eq_true, Option.isSome_eq_false_iff, Option.isNone_iff_eq_none] at notMem
      exact (least_of_undefined notMem).symm
    · exact (least_of_patched patched).symm
  · rw [Option.join_some]
    exact right key value found

/-- The table of literals is the same for every order in which the methods are visited, it is
the least solution of the equations, and no method on or before a cycle is in it. -/
theorem literalReturns_least (index : FoldIndex) (defs : FoldDefs) (order : List MethodKey)
    (all : ∀ key, key ∈ order ↔ (defs key).isSome = true) :
    ∃ table, Fuel.Returns (fun fuel => computeLiteralReturns index defs fuel order) table ∧
      (∀ other : List MethodKey, (∀ key, key ∈ other ↔ (defs key).isSome = true) →
        Fuel.Returns (fun fuel => computeLiteralReturns index defs fuel other) table) ∧
      (∀ key value, table key = some value ↔ Equation index defs table key value) ∧
      (∀ solution : MethodKey → Option Scalar,
        (∀ key value, solution key = some value ↔ Equation index defs solution key value) →
          Extends table solution) ∧
      ∀ key, (foldEquations index defs).ReachesCycle key → table key = none := by
  refine ⟨(foldEquations index defs).least, returns_computeLiteralReturns all,
    fun other all => returns_computeLiteralReturns all, ?_, ?_, fun key =>
      Equations.least_of_reachesCycle⟩
  · intro key value
    rw [least_eq]
    exact keyValue_eq_some_iff
  · intro solution solves
    apply Equations.least_extends
    funext key
    apply Option.ext
    intro value
    rw [solves]
    exact keyValue_eq_some_iff

end Runs

/-! ## Patches of a method's name -/

/-- The equation of a method without regard to patches. -/
def UnpatchedEquation (index : FoldIndex) (defs : FoldDefs) (values : MethodKey → Option Scalar)
    (key : MethodKey) (value : Scalar) : Prop :=
  index.overriddenInProject key.1 key.2.1 key.2.2 = false ∧
    ∃ sites, defs key = some sites ∧ sites ≠ [] ∧ ∀ site ∈ sites,
      site.hasExplicitReturn = false ∧ tailValue index values key.1 key.2.2 site.tail = some value

/-- An index in which `pre_eval` patches define some names, and nothing else is known. -/
def patchedIndex (patched : Text → Bool) : FoldIndex where
  preEvalDefinesName := patched
  resolveSingletonSlot _ _ := none
  resolveInstanceOwner _ _ := none
  overriddenInProject _ _ _ := false
  fold _ _ _ := none

def flagKey : MethodKey :=
  ("C".toList, "flag".toList, .inst)

/-- `class C; def flag = true; end` -/
def flagDefs : FoldDefs :=
  fun key => if key = flagKey then some [⟨.scalar (.bool true), false⟩] else none

theorem mem_flagKey_iff (key : MethodKey) : key ∈ [flagKey] ↔ (flagDefs key).isSome = true := by
  rw [List.mem_singleton, flagDefs]
  split <;> simp_all

/-- An index in which every class answers its own methods. -/
def ownIndex : FoldIndex :=
  { patchedIndex fun _ => false with resolveInstanceOwner := fun owner _ => some owner }

/-- `flag` is a literal, `on` calls it, `self.all` and `self.any` call each other, and one body of
`none` calls `on`, the other `C.all`. -/
def callingBodies : List (MethodKey × List FoldSite) :=
  [(flagKey, [⟨.scalar (.bool true), false⟩]),
    (("C".toList, "on".toList, .inst), [⟨.selfCall "flag".toList, false⟩]),
    (("C".toList, "all".toList, .singleton), [⟨.constCall "C".toList "any".toList, false⟩]),
    (("C".toList, "any".toList, .singleton), [⟨.constCall "C".toList "all".toList, false⟩]),
    (("C".toList, "none".toList, .inst),
      [⟨.selfCall "on".toList, false⟩, ⟨.constCall "C".toList "all".toList, false⟩])]

def callingDefs : FoldDefs :=
  fun key => callingBodies.lookup key

def callingKeys : List MethodKey :=
  callingBodies.map Prod.fst

theorem mem_callingKeys_iff (key : MethodKey) :
    key ∈ callingKeys ↔ (callingDefs key).isSome = true := by
  rw [callingKeys, callingDefs, List.lookup_isSome_iff, List.mem_map]
  simp only [beq_iff_eq, @eq_comm _ key]

theorem literalReturns_least_calling :
    ∃ table, Fuel.Returns (fun fuel =>
        computeLiteralReturns ownIndex callingDefs fuel callingKeys) table ∧
      (∀ other : List MethodKey, (∀ key, key ∈ other ↔ (callingDefs key).isSome = true) →
        Fuel.Returns (fun fuel => computeLiteralReturns ownIndex callingDefs fuel other) table) ∧
      (∀ key value, table key = some value ↔ Equation ownIndex callingDefs table key value) ∧
      (∀ solution : MethodKey → Option Scalar, (∀ key value, solution key = some value ↔
          Equation ownIndex callingDefs solution key value) → Extends table solution) ∧
      ∀ key, (foldEquations ownIndex callingDefs).ReachesCycle key → table key = none :=
  literalReturns_least ownIndex callingDefs callingKeys mem_callingKeys_iff

/-- A patch of the name keeps a method out of the table whatever its tail says. -/
theorem not_unpatched_solution : ¬ ∀ (index : FoldIndex) (defs : FoldDefs) (order : List MethodKey),
    (∀ key, key ∈ order ↔ (defs key).isSome = true) →
      ∃ table, Fuel.Returns (fun fuel => computeLiteralReturns index defs fuel order) table ∧
        ∀ key value, table key = some value ↔ UnpatchedEquation index defs table key value := by
  intro claimed
  obtain ⟨table, returns, solves⟩ := claimed (patchedIndex fun _ => true) flagDefs [flagKey]
    mem_flagKey_iff
  obtain ⟨enough, ran⟩ := returns
  have absent : computeLiteralReturns (patchedIndex fun _ => true) flagDefs (enough + 1) [flagKey] =
      some fun _ => none := rfl
  have empty := Option.some.inj (absent.symm.trans (ran (enough + 1) (Nat.lt_succ_self _)))
  have folds : UnpatchedEquation (patchedIndex fun _ => true) flagDefs table flagKey (.bool true) := by
    refine ⟨rfl, [⟨.scalar (.bool true), false⟩], rfl, by simp, ?_⟩
    intro site mem
    obtain rfl := List.mem_singleton.mp mem
    exact ⟨rfl, rfl⟩
  have found := (solves flagKey (.bool true)).mpr folds
  rw [← empty] at found
  simp at found

end Rigor.Infer.Source
