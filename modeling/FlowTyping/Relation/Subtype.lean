import FlowTyping.Relation.Basic

/-!
# Subtyping

`a` is a subtype of `b` when every value of `a` may stand where a `b` is wanted.

* Shapes compare by width and depth: each property that `b` requires must be there, at a subtype, and
  writable where `b` writes it. Every value but `null` and `undefined` has the empty shape.
* Tuples compare position by position; a missing position of `b` must be optional.
* Functions are contravariant in their parameters and covariant in their result. One that takes fewer
  parameters may stand for one that takes more, and any result fits where `undefined` is returned.
-/

namespace FlowTyping.Rules

variable {m : Type → Type} [TypeStore m] (r : Rules m)

/-- Whether `a` has each of the properties of a shape. -/
def propsSubtype (a : Ty) : List (Property Ty) → m Bool
  | [] => pure true
  | pb :: rest => do
    match ← r.propertyOf a pb.name with
    | none => if pb.optional then propsSubtype a rest else pure false
    | some pa =>
      if pa.optional && !pb.optional then pure false
      else if pa.readonly && !pb.readonly then pure false
      else if ← r.subtype pa.type pb.type then propsSubtype a rest
      else pure false

/-- Whether `a` carries a class tag that derives from `tag`. -/
def tagFits (h : Hierarchy) (tag : String) : Ty → Bool
  | .object own _ => !own.isEmpty && h.derives own tag
  | _ => false

/-- Whether `a` fits an object shape. -/
def objectSubtype (a : Ty) (tag : String) (props : List (Property Ty)) : m Bool := do
  match a with
  | .null | .undefined => pure false
  | _ =>
    if tag.isEmpty then propsSubtype r a props
    else if tagFits (← TypeStore.hierarchy) tag a then propsSubtype r a props
    else pure false

/-- Compares the elements of two tuples. A position that only the right side has must be optional
there and take the rest elements of the left; one that only the left side has must fit the rest of
the right. -/
def elemsSubtype (restA restB : Option Ty) : List (Elem Ty) → List (Elem Ty) → m Bool
  | ea :: as, eb :: bs => do
    if ea.optional && !eb.optional then pure false
    else if ← r.subtype ea.type eb.type then elemsSubtype restA restB as bs
    else pure false
  | [], eb :: bs => do
    if !eb.optional then pure false
    else
      match restA with
      | none => elemsSubtype restA restB [] bs
      | some ra => if ← r.subtype ra eb.type then elemsSubtype restA restB [] bs else pure false
  | ea :: as, [] => do
    match restB with
    | none => pure false
    | some rb => if ← r.subtype ea.type rb then elemsSubtype restA restB as [] else pure false
  | [], [] =>
    match restA, restB with
    | none, _ => pure true
    | some _, none => pure false
    | some ra, some rb => r.subtype ra rb

/-- What one argument of a parameter has to be: the element type of a rest parameter's array. -/
def argType (p : Param Ty) : Ty :=
  match p.rest, p.type with
  | true, .tuple _ (some rest) => rest
  | _, t => t

/-- Compares parameters pairwise, contravariantly, as far as both sides have them. -/
def paramsSubtype : List (Param Ty) → List (Param Ty) → m Bool
  | pa :: as, pb :: bs => do
    if ← r.subtype (argType pb) (argType pa) then paramsSubtype as bs else pure false
  | _, _ => pure true

/-- Number of parameters that a call must fill. -/
def requiredCount (params : List (Param Ty)) : Nat :=
  params.countP fun p => !p.optional && !p.rest

/-- Whether the last parameter takes any number of arguments. -/
def endsInRest (params : List (Param Ty)) : Bool :=
  match params.getLast? with
  | some p => p.rest
  | none => false

/-- Compares two functions. -/
def functionSubtype (paramsA : List (Param Ty)) (retA : Ty) (paramsB : List (Param Ty)) (retB : Ty) :
    m Bool := do
  if paramsB.length < requiredCount paramsA && !endsInRest paramsB then pure false
  else if ← paramsSubtype r paramsA paramsB then
    if retB.isUndefined then pure true else r.subtype retA retB
  else pure false

/-- The rules for two types neither of which is a union, an intersection or a type parameter. -/
def plainSubtype (a b : Ty) : m Bool :=
  match a, b with
  | _, .object tag props => objectSubtype r a tag props
  | .tuple elemsA restA, .tuple elemsB restB => elemsSubtype r restA restB elemsA elemsB
  | .function paramsA retA, .function paramsB retB => functionSubtype r paramsA retA paramsB retB
  | .literal l, .boolean | .literal l, .number | .literal l, .string => pure (l.base.same b)
  | _, _ => pure false

/-- The rules for a left side that is neither a union nor a type parameter, against a right side that
is no intersection. -/
def rightSubtype (a b : Ty) : m Bool := do
  match b, a with
  | .union bs, .inter as =>
    if ← bs.anyM (fun t => r.subtype a t) then pure true
    else as.anyM (fun t => r.subtype t b)
  | .union bs, _ => bs.anyM (fun t => r.subtype a t)
  | .object tag props, .inter as =>
    if ← as.anyM (fun t => r.subtype t b) then pure true else objectSubtype r a tag props
  | _, .inter as => as.anyM (fun t => r.subtype t b)
  | _, _ => plainSubtype r a b

/-- Whether a type parameter is below `b`: it is one of the alternatives of `b` or its bound is
below `b`. -/
def varSubtype (a : Ty) (bound : Option Ty) (b : Ty) : m Bool := do
  let found ← match b with
    | .union bs => bs.anyM (fun t => r.subtype a t)
    | _ => pure false
  if found then pure true
  else
    match bound with
    | some c => r.subtype c b
    | none => pure false

/-- The rule that applies to two types with different keys: a union on the left and an intersection
on the right are taken apart first. -/
def subtypeRule (a b : Ty) : m Bool :=
  match a, b with
  | .never, _ => pure true
  | _, .unknown => pure true
  | .unknown, _ => pure false
  | _, .never => pure false
  | .union as, _ => as.allM (fun t => r.subtype t b)
  | _, .inter bs => bs.allM (fun t => r.subtype a t)
  | .var _ bound, _ => varSubtype r a bound b
  | _, _ => rightSubtype r a b

/-- Answers a subtype question: equal keys at once, then from memory, then by rule. -/
def subtypeStep (a b : Ty) : m Bool := do
  let question := (a.key, b.key)
  if question.1 = question.2 then pure true
  else
    match ← TypeStore.answered? question with
    | some answer => pure answer
    | none =>
      let answer ← subtypeRule r a b
      TypeStore.remember question answer
      pure answer

end FlowTyping.Rules
