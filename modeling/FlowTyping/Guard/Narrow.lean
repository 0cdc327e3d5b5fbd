import FlowTyping.Guard.Basic
import FlowTyping.Relation.Answers

/-!
# Narrowing

`narrow` splits the type of a guard's variable into what it is where the guard holds and what it is
where it does not. Every rule looks at the alternatives of the type one by one. A guard that cannot
tell anything is *degraded*: both sides then keep the whole type.

Whatever the rules yield, both sides stay within the type that was split (`withinInput`).
-/

namespace FlowTyping

/-- Why a guard cannot narrow. -/
inductive Degradation where
  | unsupportedTag (tag : Text)
  | noEnvironment (var : String)
  | unbound (var : String)
  | valueNotUnit (value : Ty)
  | noProperty (member : Ty) (prop : Text)
  | propertyNotUnit (member : Ty) (prop : Text)
  | undeclaredClass (tag : String)
  | undeclaredPredicate (fn : String)
  | otherArgument (fn : String)
  deriving Repr

def Degradation.message : Degradation → Text
  | .unsupportedTag tag => "unsupported typeof tag " ++ tag
  | .noEnvironment var => "no environment to resolve " ++ var
  | .unbound var => "unbound variable " ++ var
  | .valueNotUnit value => "discriminant value " ++ value.render ++ " is not a literal"
  | .noProperty member prop => member.render ++ " has no property " ++ prop
  | .propertyNotUnit member prop =>
    "property " ++ prop ++ " of " ++ member.render ++ " is not a literal"
  | .undeclaredClass tag => "undeclared class " ++ tag
  | .undeclaredPredicate fn => "undeclared predicate " ++ fn
  | .otherArgument fn => "predicate " ++ fn ++ " does not narrow this argument"

/-- A type split by a guard. -/
structure Split where
  /-- What the variable is where the guard holds. -/
  yes : Ty
  /-- What the variable is where the guard does not hold. -/
  no : Ty
  degraded : Bool := false
  reason : Option Degradation := none
  deriving Repr

namespace Split

/-- Both sides keep the whole type. -/
def unchanged (current : Ty) (reason : Degradation) : Split :=
  { yes := current, no := current, degraded := true, reason := some reason }

/-- The split by the opposite test. -/
def swap (s : Split) : Split := { s with yes := s.no, no := s.yes }

end Split

namespace Ty

/-- The sorts of value that a `typeof` test can ask for. -/
def typeofTags : List String := ["string", "number", "boolean", "undefined", "object", "function"]

mutual
/-- What `typeof` answers for every value of a type; empty where that is not known. -/
def typeofTag : Ty → String
  | .null | .object _ _ | .tuple _ _ => "object"
  | .undefined => "undefined"
  | .boolean => "boolean"
  | .number => "number"
  | .string => "string"
  | .function _ _ => "function"
  | .literal l => l.base.kind
  | .var _ (some bound) => typeofTag bound
  | .inter ms => firstTag ms
  | .union ms => sharedTag ms
  | _ => ""

/-- The first known tag among the members of an intersection. -/
def firstTag : List Ty → String
  | [] => ""
  | t :: ts => if typeofTag t = "" then firstTag ts else typeofTag t

/-- The tag that all members of a union have. -/
def sharedTag : List Ty → String
  | [] => ""
  | [t] => typeofTag t
  | t :: ts => if typeofTag t = sharedTag ts then typeofTag t else ""
end

mutual
/-- Whether values of a type can pass, and whether they can fail, as a condition. -/
def truthiness : Ty → Bool × Bool
  | .never => (false, false)
  | .null | .undefined => (false, true)
  | .literal l => (!l.falsy, l.falsy)
  | .object _ _ | .tuple _ _ | .function _ _ => (true, false)
  | .var _ (some bound) => truthiness bound
  | .union ms => truthinessAny ms
  | .inter ms => truthinessAll ms
  | _ => (true, true)

def truthinessAny : List Ty → Bool × Bool
  | [] => (false, false)
  | t :: ts => ((truthiness t).1 || (truthinessAny ts).1, (truthiness t).2 || (truthinessAny ts).2)

def truthinessAll : List Ty → Bool × Bool
  | [] => (true, true)
  | t :: ts => ((truthiness t).1 && (truthinessAll ts).1, (truthiness t).2 && (truthinessAll ts).2)
end

/-- Whether the type has alternatives and each of them is a single value. -/
def allUnits (t : Ty) : Bool := !t.members.isEmpty && t.members.all Ty.isUnit

end Ty

namespace Guard

open TypeStore

variable {m : Type → Type} [TypeStore m]

/-- Splits a type alternative by alternative. -/
def splitBy (t : Ty) (f : Ty → m (Ty × Ty)) : m Split := do
  let parts ← t.members.mapM f
  let yes ← union (parts.map (·.1))
  let no ← union (parts.map (·.2))
  return { yes, no }

/-- All values for which `typeof` answers a tag, where a type for them exists. -/
def typeofType (tag : String) : m (Option Ty) := do
  match tag with
  | "string" => return some .string
  | "number" => return some .number
  | "boolean" => return some .boolean
  | "undefined" => return some .undefined
  | "object" => return some (← union [.null, ← object "" []])
  | _ => return none

/-- Splits by what `typeof` answers. -/
def splitTypeof (tag : Text) (current : Ty) : m Split := do
  match Ty.typeofTags.find? (fun known => Text.ofString known = tag) with
  | some tag =>
    splitBy current fun t => do
      let own := t.typeofTag
      if own = tag then return (t, .never)
      else if own.isEmpty then
        match ← typeofType tag with
        | some all => return (← meet t all, t)
        | none => return (t, t)
      else return (.never, t)
  | none => return .unchanged current (.unsupportedTag tag)

/-- Splits by whether a value passes as a condition. -/
def splitTruthy (current : Ty) : m Split :=
  splitBy current fun t =>
    let (canPass, canFail) := t.truthiness
    pure (if canPass then t else .never, if canFail then t else .never)

/-- The type without the values of `right`, which can be left out only if they are single values.
`boolean` is taken as its two values. -/
def without (t right : Ty) : m Ty := do
  let units := right.members
  if units.all Ty.isUnit then
    let excluded (x : Ty) : Bool := units.any (·.same x)
    let kept ← t.members.mapM fun x => do
      if excluded x then return []
      else
        match x with
        | .boolean =>
          let yes ← literal (.bool true)
          let no ← literal (.bool false)
          return [yes, no].filter (!excluded ·)
        | _ => return [x]
    union kept.flatten
  else return t

/-- Splits by the value of a property. Every alternative must have the property, and its type must
list single values. -/
def splitDiscriminant (current : Ty) (prop : Text) (value : Ty) : m Split := do
  if !value.allUnits then return .unchanged current (.valueNotUnit value)
  else
    let rec go (yes no : List Ty) : List Ty → m Split
      | [] => do
        let yes ← union yes
        let no ← union no
        return { yes, no }
      | t :: ts => do
        match ← propertyOf t prop with
        | none => return .unchanged current (.noProperty t prop)
        | some p =>
          let field ← if p.optional then union [p.type, .undefined] else pure p.type
          if !field.allUnits then return .unchanged current (.propertyNotUnit t prop)
          else
            let met ← meet field value
            let left ← without field value
            go (if met.isNever then yes else yes ++ [t]) (if left.isNever then no else no ++ [t]) ts
    go [] [] current.members

/-- Whether a type is `null` or `undefined`. -/
def isNullish : Ty → Bool
  | .null | .undefined => true
  | _ => false

/-- The type that a comparand stands for. Without an environment variables have none. -/
def comparandType (env : Option (String → Option Ty)) : Comparand → Except Degradation Ty
  | .type t => .ok t
  | .var name =>
    match env with
    | none => .error (.noEnvironment name)
    | some lookup =>
      match lookup name with
      | some t => .ok t
      | none => .error (.unbound name)

/-- Splits by equality. -/
def splitEquality (op : EqOp) (prop : Option Text) (right : Ty) (current : Ty) : m Split := do
  let right ← if op.loose && isNullish right then union [.null, .undefined] else pure right
  let split ← match prop with
    | some prop => splitDiscriminant current prop right
    | none =>
      let yes ← meet current right
      let no ← without current right
      pure { yes, no }
  return if op.negated then split.swap else split

/-- Splits by whether a value has a property. A test of a value that is no object never passes. -/
def splitHas (prop : Text) (current : Ty) : m Split :=
  splitBy current fun t => do
    match t with
    | .unknown => return (t, t)
    | .object _ _ | .tuple _ _ | .function _ _ | .inter _ =>
      match ← propertyOf t prop with
      | none => return (.never, t)
      | some p => return (t, if p.optional then t else .never)
    | .var _ _ =>
      match ← propertyOf t prop with
      | none => return (t, t)
      | some p => return (t, if p.optional then t else .never)
    | _ => return (.never, t)

/-- Splits by whether a value is of a class. -/
def splitInstance (tag : String) (current : Ty) : m Split := do
  let h ← hierarchy
  match h.find? tag with
  | none => return .unchanged current (.undeclaredClass tag)
  | some c =>
    let shape ← match c.shape with
      | some shape => pure shape
      | none => object tag []
    splitBy current fun t => do
      match t with
      | .object own _ =>
        if own.isEmpty then return (← meet t shape, t)
        else if h.derives own tag then return (t, .never)
        else if h.derives tag own then return (shape, t)
        else return (.never, t)
      | .unknown => return (shape, t)
      | .never | .null | .undefined | .boolean | .number | .string | .literal _ => return (.never, t)
      | _ => return (← meet t shape, t)

/-- The type cut down to `target`: the alternatives within it if there are any, else what both have
in common. -/
def narrowTo (current target : Ty) : m Ty := do
  let within ← union (← current.members.filterM fun t => subtype t target)
  if within.isNever then meet current target else return within

/-- Splits by what a predicate function says of its argument. -/
def splitPredicate (preds : Predicates) (fn : String) (position : Int) (current : Ty) : m Split := do
  match preds.find? fn with
  | none => return .unchanged current (.undeclaredPredicate fn)
  | some decl =>
    if decl.position ≠ position then return .unchanged current (.otherArgument fn)
    else
      let no ← union (← current.members.filterM fun t => return !(← subtype t decl.narrows))
      let yes ← narrowTo current decl.narrows
      return { yes, no }

/-- Splits by the rule of a guard. -/
def split (preds : Predicates) (env : Option (String → Option Ty)) (g : Guard) (current : Ty) :
    m Split :=
  match g with
  | .typeOf _ tag => splitTypeof tag current
  | .truthy _ => splitTruthy current
  | .equality op left right =>
    match comparandType env right with
    | .ok right => splitEquality op left.prop right current
    | .error reason => pure (.unchanged current reason)
  | .has prop _ => splitHas prop current
  | .instanceOf _ tag => splitInstance tag current
  | .discriminant _ prop value => splitDiscriminant current prop value
  | .predicate fn position _ => splitPredicate preds fn position current

/-- Puts the whole type in place of a side that is not within it. -/
def withinInput (current : Ty) (s : Split) : m Split := do
  let s ← if ← subtype s.yes current then pure s
    else pure { s with yes := current, degraded := true }
  if ← subtype s.no current then return s
  else return { s with no := current, degraded := true }

/-- Splits the type of a guard's variable. -/
def narrow (preds : Predicates) (env : Option (String → Option Ty)) (g : Guard) (current : Ty) :
    m Split := do
  withinInput current (← g.split preds env current)

end Guard
end FlowTyping
