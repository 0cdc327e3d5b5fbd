import FlowTyping.Signature.Basic

/-!
# Inference

The arguments of a call are matched against the parameter types. Wherever a type parameter of the
signature stands, the corresponding part of the argument is joined into its lower bound.

The alternatives of an argument are matched one by one, except against a union: there those that
the union's other members cover are dropped and the rest go to its single type parameter.
-/

namespace FlowTyping

/-- The lower bounds found so far for type parameters. -/
abbrev Bounds := Subst

namespace Bounds

variable {m : Type → Type} [TypeStore m]

/-- Joins a type into the lower bound of a type parameter. -/
def raise (bounds : Bounds) (param t : Ty) : m Bounds := do
  match bounds.get? param with
  | some prev => return bounds.add param (← TypeStore.join prev t)
  | none => return bounds.add param t

end Bounds

namespace Signature

variable {m : Type → Type} [TypeStore m]

/-- Whether a type is one of the given type parameters. -/
def isOneOf (vars : List Ty) (t : Ty) : Bool :=
  match t with
  | .var _ _ => vars.any (·.same t)
  | _ => false

/-- Whether a type mentions no type parameter. -/
def isClosed (t : Ty) : Bool := t.freeVars.isEmpty

/-- The parts of an argument that are matched one by one. -/
def matchedParts : Ty → List Ty
  | .union ms => ms
  | t => [t]

/-- Matches an argument against a union with a single type parameter among its members. -/
def matchUnion (vars members : List Ty) (arg : Ty) (bounds : Bounds) : m Bounds := do
  match members.filter (isOneOf vars) with
  | [v] =>
    let fixed := members.filter (!isOneOf vars ·)
    let rest ← TypeStore.union
      (← arg.members.filterM fun t => return !(← fixed.anyM fun f => TypeStore.subtype t f))
    if rest.isNever then return bounds else bounds.raise v rest
  | _ => return bounds

mutual
/-- Matches an argument against a parameter type. -/
def matchType (vars : List Ty) : (param arg : Ty) → Bounds → m Bounds
  | .var name bound, arg, bounds =>
    if isOneOf vars (.var name bound) then bounds.raise (.var name bound) arg else pure bounds
  | .union ms, arg, bounds =>
    if isClosed (.union ms) then pure bounds else matchUnion vars ms arg bounds
  | .inter ms, arg, bounds =>
    if isClosed (.inter ms) then pure bounds
    else (matchedParts arg).foldlM (fun bounds part => matchMembers vars ms part bounds) bounds
  | .tuple elems none, arg, bounds =>
    if isClosed (.tuple elems none) then pure bounds
    else
      (matchedParts arg).foldlM (fun bounds part =>
        match part with
        | .tuple argElems argRest => matchElems vars elems argElems argRest bounds
        | _ => pure bounds) bounds
  | .tuple elems (some rest), arg, bounds =>
    if isClosed (.tuple elems (some rest)) then pure bounds
    else
      (matchedParts arg).foldlM (fun bounds part =>
        match part with
        | .tuple argElems argRest => do
          let bounds ← matchElems vars elems argElems argRest bounds
          let bounds ← (argElems.drop elems.length).foldlM
            (fun bounds e => matchType vars rest e.type bounds) bounds
          match argRest with
          | some argRest => matchType vars rest argRest bounds
          | none => pure bounds
        | _ => pure bounds) bounds
  | .object tag props, arg, bounds =>
    if isClosed (.object tag props) then pure bounds
    else (matchedParts arg).foldlM (fun bounds part => matchProps vars props part bounds) bounds
  | .function params ret, arg, bounds =>
    if isClosed (.function params ret) then pure bounds
    else
      (matchedParts arg).foldlM (fun bounds part =>
        match part with
        | .function argParams argRet => do
          matchType vars ret argRet (← matchParams vars params argParams bounds)
        | _ => pure bounds) bounds
  | _, _, bounds => pure bounds

/-- Matches an argument against every member of an intersection. -/
def matchMembers (vars : List Ty) : (members : List Ty) → (arg : Ty) → Bounds → m Bounds
  | [], _, bounds => pure bounds
  | t :: ts, arg, bounds => do matchMembers vars ts arg (← matchType vars t arg bounds)

/-- Matches elements position by position; past the last one, the rest of the argument's tuple. -/
def matchElems (vars : List Ty) :
    (elems : List (Elem Ty)) → List (Elem Ty) → Option Ty → Bounds → m Bounds
  | [], _, _, bounds => pure bounds
  | ⟨t, _⟩ :: es, a :: as, rest, bounds => do
    matchElems vars es as rest (← matchType vars t a.type bounds)
  | ⟨t, _⟩ :: es, [], some rest, bounds => do
    matchElems vars es [] (some rest) (← matchType vars t rest bounds)
  | _ :: _, [], none, bounds => pure bounds

/-- Matches the properties that the argument has. -/
def matchProps (vars : List Ty) : (props : List (Property Ty)) → (arg : Ty) → Bounds → m Bounds
  | [], _, bounds => pure bounds
  | ⟨name, t, _, _⟩ :: ps, arg, bounds => do
    match ← TypeStore.propertyOf arg name with
    | some p => matchProps vars ps arg (← matchType vars t p.type bounds)
    | none => matchProps vars ps arg bounds

/-- Matches parameters position by position. -/
def matchParams (vars : List Ty) :
    (params : List (Param Ty)) → List (Param Ty) → Bounds → m Bounds
  | ⟨_, t, _, _⟩ :: ps, a :: as, bounds => do
    matchParams vars ps as (← matchType vars t a.type bounds)
  | _, _, bounds => pure bounds
end

/-- Matches arguments from position `i` on, as far as the signature takes them. -/
def inferFrom (sig : Signature) : (i : Nat) → List Ty → Bounds → m Bounds
  | _, [], bounds => pure bounds
  | i, arg :: args, bounds => do
    match sig.paramType? i with
    | none => return bounds
    | some param => inferFrom sig (i + 1) args (← matchType sig.typeParams param arg bounds)

/-- The lower bounds that the arguments of a call give the type parameters. -/
def infer (sig : Signature) (args : List Ty) : m Bounds := inferFrom sig 0 args []

/-- Binds every type parameter to its lower bound, and to `unknown` without one. -/
def boundsSubst (sig : Signature) (bounds : Bounds) : Subst :=
  sig.typeParams.foldl (fun subst v => subst.add v ((bounds.get? v).getD .unknown)) []

end Signature
end FlowTyping
