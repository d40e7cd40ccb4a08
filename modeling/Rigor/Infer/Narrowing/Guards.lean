import Rigor.Infer.Narrowing.Facts

/-!
# Class guards

Which classes a predicate asserts of the bare locals on its truthy and on its falsey edge, and
what an asserted class does to the facts of an edge.
-/

namespace Rigor.Infer.Narrowing

inductive ClassOrdering where
  | equal
  | subclass
  | superclass
  | disjoint
  | unknown
  deriving DecidableEq

/-- What the narrowing asks about the body it walks: the class index, the names the project
declares in scope, the enclosing modules, and the typer. -/
structure Index where
  classOrdering : Text → Text → ClassOrdering
  /-- `constant_names_a_known_class`. -/
  knownClass : Text → Bool
  /-- `constant_shadowed`. -/
  constantShadowed : Text → Bool
  enclosing : List Text
  typeOf : Types → Node → Carrier
  /-- The carrier a multiple assignment binds to a target. -/
  bindTarget : Carrier → Text → Carrier
  /-- The locals that a call may change in place as arguments, by the id of the call. -/
  floored : Nat → List Text

/-- The classes an edge asserts of a local. -/
structure GuardFact where
  classes : List Text
  /-- `instance_of?`. -/
  exact : Bool
  mintable : Bool
  deriving DecidableEq

/-- The guard facts of an edge in source order. -/
abbrev GuardMap := List (Text × GuardFact)

def addClass (classes : List Text) (className : Text) : List Text :=
  if className ∈ classes then classes else classes ++ [className]

/-- `join_guards`. -/
def joinGuards (first second : GuardMap) : GuardMap :=
  first.filterMap fun entry =>
    (second.find? (·.1 = entry.1)).map fun other =>
      (entry.1, {
        classes := other.2.classes.foldl addClass entry.2.classes
        exact := entry.2.exact && other.2.exact
        mintable := entry.2.mintable && other.2.mintable })

def nilFact : GuardFact :=
  { classes := ["NilClass".toList], exact := false, mintable := false }

/-- `regex_binding_match`. -/
def regexBindingMatch : Nat → Node → Bool
  | 0, _ => true
  | depth + 1, .call _ receiver method args _ =>
      (method == "=~".toList &&
        !receiver.any fun
          | .localRead _ | .variableRead => true
          | _ => false) ||
        receiver.any (regexBindingMatch depth) || args.any (regexBindingMatch depth)
  | depth + 1, .logical _ left right =>
      regexBindingMatch depth left || regexBindingMatch depth right
  | depth + 1, .jump values => values.any (regexBindingMatch depth)
  | _ + 1, _ => false

def isClassTest (method : Text) : Bool :=
  method == "is_a?".toList || method == "kind_of?".toList || method == "instance_of?".toList

/-- The operand of `!` and `not`. -/
def negated : Node → Option Node
  | .call _ (some operand) method [] false => if method = "!".toList then some operand else none
  | _ => none

/-- The local compared with `nil`. -/
def comparedWithNil : Node → Node → Option Text
  | .localRead name, .nilLit => some name
  | .nilLit, .localRead name => some name
  | _, _ => none

namespace Index

variable (index : Index)

/-- `resolve_constant_as_written`. -/
def resolveConstantAsWritten : Text → Text
  | ':' :: ':' :: bare => bare
  | name =>
      let candidates := (List.range index.enclosing.length).reverse.map fun depth =>
        List.intercalate "::".toList (index.enclosing.take (depth + 1)) ++ "::".toList ++ name
      (candidates.find? index.knownClass).getD name

/-- `guard_constant`: the resolved name and whether a guard on it mints. -/
def guardConstant : Node → Option (Text × Bool)
  | .constantRead name =>
      if name = [] then none
      else some (index.resolveConstantAsWritten name, !index.constantShadowed name)
  | _ => none

/-- `resolved_static_constant`. -/
def resolvedStaticConstant : Node → Option Text
  | .constantRead name =>
      if name = [] || index.constantShadowed name then none
      else some (index.resolveConstantAsWritten name)
  | _ => none

/-- `guard_predicate`: one atomic predicate on a bare local. -/
def guardPredicate : Node → Option (GuardMap × GuardMap)
  | .call _ (some receiver) method [arg] false =>
      if isClassTest method then
        match index.guardConstant arg, bareLocal receiver with
        | some (className, mintable), some name =>
            some ([(name, {
              classes := [className]
              exact := method == "instance_of?".toList
              mintable })], [])
        | _, _ => none
      else if method = "===".toList then
        match bareLocal arg, index.resolvedStaticConstant receiver with
        | some name, some className =>
            some ([(name, { classes := [className], exact := false, mintable := false })], [])
        | _, _ => none
      else if method = "==".toList then
        (comparedWithNil receiver arg).map fun name => ([(name, nilFact)], [])
      else if method = "!=".toList then
        (comparedWithNil receiver arg).map fun name => ([], [(name, nilFact)])
      else none
  | .call _ (some receiver) method [] false =>
      if method = "nil?".toList then
        (bareLocal receiver).map fun name => ([(name, nilFact)], [])
      else none
  | _ => none

/-- `analyse_predicate`: the guard facts of the truthy and of the falsey edge. -/
def analysePredicate : Nat → Node → Option (GuardMap × GuardMap)
  | 0, _ => none
  | depth + 1, .logical isAnd left right =>
      if regexBindingMatch (depth + 1) left || regexBindingMatch (depth + 1) right then none
      else
        let first := analysePredicate depth left
        let second := analysePredicate depth right
        if first.isNone && second.isNone then none
        else
          let a := first.getD ([], [])
          let b := second.getD ([], [])
          if isAnd then some (a.1 ++ b.1, joinGuards a.2 b.2)
          else some (joinGuards a.1 b.1, a.2 ++ b.2)
  | depth + 1, node =>
      match negated node with
      | some operand => (analysePredicate depth operand).map Prod.swap
      | none => index.guardPredicate node

/-- The guard facts of the edges of a predicate. -/
def edgesOf (predicate : Node) : GuardMap × GuardMap :=
  (index.analysePredicate 64 predicate).getD ([], [])

/-- `guard_meet_precise`. -/
def guardMeetPrecise (types : Types) (facts : Facts) (name className : Text) (exact : Bool) :
    Option ClassFact :=
  match facts name with
  | some .bot => some .bot
  | some .widened => some .widened
  | _ =>
      match types name with
      | some (.nominal (some carrier)) =>
          if exact then if carrier = className then none else some .bot
          else
            match index.classOrdering carrier className with
            | .disjoint => some .bot
            | .unknown => some .widened
            | .equal | .subclass | .superclass => none
      | some (.shaped (some carrier)) =>
          if exact then if carrier = className then none else some .bot
          else
            match index.classOrdering carrier className with
            | .equal | .subclass => none
            | .unknown => some .widened
            | .disjoint | .superclass => some .bot
      | _ => none

/-- What a member of a union keeps of a carrier. -/
def meetMember (carrier : Text) (exact : Bool) (className : Text) : Option Text :=
  if exact then if className = carrier then some carrier else none
  else
    match index.classOrdering carrier className with
    | .disjoint | .unknown => none
    | .superclass => some className
    | .equal | .subclass => some carrier

/-- `narrow_nominal_to_class`: a guard on a narrowed local. -/
def narrowNominalToClass (carrier : Text) (guard : GuardFact) : Option ClassFact :=
  match guard.classes with
  | [className] =>
      if className = carrier then some (.narrowed carrier)
      else if guard.exact then some .bot
      else
        match index.classOrdering carrier className with
        | .equal | .subclass => some (.narrowed carrier)
        | .superclass => some (.narrowed className)
        | .disjoint => some .bot
        | .unknown => some .widened
  | classes =>
      if classes.any fun className =>
          !guard.exact && index.classOrdering carrier className == .unknown then
        some .widened
      else
        match (classes.filterMap (index.meetMember carrier guard.exact)).eraseDups with
        | [] => some .bot
        | [one] => some (.narrowed one)
        | _ => none

end Index

/-- The carrier gate of `narrow_class_other`. -/
def untypedLocal (types : Types) (name : Text) : Bool :=
  match types name with
  | none | some .dynamic => true
  | _ => false

/-- One entry of `apply_guards`.  It conflicts if an earlier entry asserted other classes. -/
def applyGuard (index : Index) (coarse : List Text) (types : Types) (conflicts : Bool)
    (name : Text) (guard : GuardFact) (facts : Facts) : Facts :=
  let met := guard.classes.map fun className =>
    index.guardMeetPrecise types facts name className guard.exact
  if some ClassFact.widened ∈ met then Function.update facts name (some .widened)
  else if met ≠ [] ∧ met.all (· = some .bot) then Function.update facts name (some .bot)
  else if conflicts then facts.kill name
  else
    match facts name, guard.classes with
    | some (.narrowed carrier), _ =>
        Function.update facts name (index.narrowNominalToClass carrier guard)
    | _, [className] =>
        if guard.mintable && name ∉ coarse && untypedLocal types name then
          Function.update facts name (some (.narrowed className))
        else facts
    | _, _ => facts

/-- `apply_guards`, with the entries applied before. -/
def applyGuards (index : Index) (coarse : List Text) (types : Types) :
    GuardMap → GuardMap → Facts → Facts
  | [], _, facts => facts
  | (name, guard) :: rest, asserted, facts =>
      let conflicts :=
        (asserted.find? (·.1 = name)).any fun earlier => earlier.2.classes != guard.classes
      applyGuards index coarse types rest ((name, guard) :: asserted)
        (applyGuard index coarse types conflicts name guard facts)

end Rigor.Infer.Narrowing
