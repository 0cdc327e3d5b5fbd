import FlowTyping.Diagnostic.Basic
import FlowTyping.Signature.Infer

/-!
# Solving generic calls

The type parameters of a call are bound to the type arguments that are written, or to what the
arguments give. An inferred literal is widened to its atom unless the parameter's bound asks for
literals or atoms. Every binding is then held against its bound.
-/

namespace FlowTyping

/-- A binding that is not within its bound. -/
structure Violation where
  param : Ty
  lower : Ty
  bound : Ty
  deriving Repr

/-- A generic call with its type parameters bound. -/
structure Solution where
  /-- The lower bounds that the bindings come from. -/
  bounds : Bounds
  /-- The bindings in the order of declaration. -/
  subst : Subst
  /-- The signature with its type parameters replaced. -/
  signature : Signature
  violations : List Violation
  /-- The type parameters that no parameter type mentions and nothing determines. -/
  underconstrained : List Ty
  deriving Repr

/-- The number of type arguments does not fit. -/
structure TypeArgCount where
  wanted : Nat
  given : Nat
  deriving DecidableEq, Repr

def TypeArgCount.message (e : TypeArgCount) : String :=
  "expected " ++ toString e.wanted ++ " type arguments, got " ++ toString e.given

namespace Solution

/-- Whether every binding is within its bound. -/
def ok (s : Solution) : Bool := s.violations.isEmpty

/-- What is wrong with a call, or merely worth saying. -/
def findings (s : Solution) : List Finding :=
  s.violations.map (fun v => .constraint v.param.varName v.lower v.bound) ++
    s.underconstrained.map fun v => .underconstrained v.varName

end Solution

namespace Ty

/-- The bound of a type parameter. -/
def bound? : Ty → Option Ty
  | .var _ bound => bound
  | _ => none

/-- Whether a bound asks for literals or atoms, so that literals are kept. -/
def keepsLiterals (bound : Ty) : Bool :=
  bound.members.any fun
    | .literal _ | .boolean | .number | .string => true
    | _ => false

/-- The atom of a literal; any other type itself. -/
def widened : Ty → Ty
  | .literal l => l.base
  | t => t

end Ty

namespace Signature

variable {m : Type → Type} [TypeStore m]

/-- Widens the literals of an inferred binding. -/
def widen (param t : Ty) : m Ty :=
  match param.bound?.map Ty.keepsLiterals with
  | some true => pure t
  | _ => TypeStore.union (t.members.map Ty.widened)

/-- Whether some parameter type mentions a type parameter. -/
def mentions (sig : Signature) (v : Ty) : Bool :=
  sig.params.any fun p => p.type.freeVars.any (·.same v)

/-- The binding of a type parameter, and whether nothing determines it. One that only an omitted
argument would have determined takes its bound. -/
def bindParam (sig : Signature) (explicit : Bool) (bounds : Bounds) (v : Ty) : m (Ty × Bool) := do
  match bounds.get? v with
  | some lower =>
    let t ← if explicit then pure lower else widen v lower
    return (t, false)
  | none => return if sig.mentions v then (v.bound?.getD .unknown, false) else (.unknown, true)

/-- Binds type parameters one after the other. -/
def bindParams (sig : Signature) (explicit : Bool) (bounds : Bounds) :
    List Ty → m (Subst × List Ty)
  | [] => pure ([], [])
  | v :: vs => do
    let (t, free) ← bindParam sig explicit bounds v
    let (subst, under) ← bindParams sig explicit bounds vs
    return ({ param := v, type := t } :: subst, if free then v :: under else under)

/-- The bindings that are not within their bounds. -/
def checkBounds (subst : Subst) : List Ty → m (List Violation)
  | [] => pure []
  | v :: vs => do
    match v.bound? with
    | none => checkBounds subst vs
    | some bound =>
      let lower := (subst.get? v).getD .unknown
      let bound ← TypeStore.apply bound subst
      if ← TypeStore.subtype lower bound then checkBounds subst vs
      else return { param := v, lower, bound } :: (← checkBounds subst vs)

/-- The lower bounds that written type arguments give. -/
def explicitBounds : List Ty → List Ty → Bounds → m Bounds
  | v :: vs, t :: ts, bounds => do explicitBounds vs ts (← bounds.raise v t)
  | _, _, bounds => pure bounds

/-- Binds the type parameters of a call. -/
def solve (sig : Signature) (args explicit : List Ty) : m (Except TypeArgCount Solution) := do
  if !explicit.isEmpty && explicit.length != sig.typeParams.length then
    return .error { wanted := sig.typeParams.length, given := explicit.length }
  else
    let bounds ←
      if explicit.isEmpty then sig.infer args else explicitBounds sig.typeParams explicit []
    let (subst, underconstrained) ← bindParams sig (!explicit.isEmpty) bounds sig.typeParams
    let violations ← checkBounds subst sig.typeParams
    let signature ← sig.instantiate subst
    return .ok { bounds, subst, signature, violations, underconstrained }

end Signature
end FlowTyping
