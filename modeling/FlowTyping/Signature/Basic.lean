import FlowTyping.Ty.Printer
import FlowTyping.Ty.Rebuild

/-!
# Signatures

A signature is how a function may be called: its type parameters, its parameters and its result. A
trailing rest parameter takes any number of arguments, each of the element type of its array.
-/

namespace FlowTyping

/-- A call signature. -/
structure Signature where
  /-- The type parameters in the order of their declaration. -/
  typeParams : List Ty := []
  params : List (Param Ty)
  ret : Ty
  deriving Repr, Inhabited

namespace Signature

def isGeneric (sig : Signature) : Bool := !sig.typeParams.isEmpty

/-- Least and greatest number of arguments of a parameter list, the latter `none` if any number is
taken. -/
def arityOf : List (Param Ty) → Nat × Option Nat
  | [] => (0, some 0)
  | p :: ps =>
    if p.rest then (0, none)
    else
      let (least, greatest) := arityOf ps
      (if p.optional then least else least + 1, greatest.map (· + 1))

/-- Least and greatest number of arguments. -/
def arity (sig : Signature) : Nat × Option Nat := arityOf sig.params

/-- Whether the signature takes `n` arguments. -/
def accepts (sig : Signature) (n : Nat) : Bool :=
  let (least, greatest) := sig.arity
  least ≤ n && greatest.all (n ≤ ·)

/-- What a rest parameter of a type wants at its position `i`. -/
def restType (t : Ty) (i : Nat) : Ty :=
  match t with
  | .tuple elems (some rest) =>
    match elems[i]? with
    | some e => e.type
    | none => rest
  | _ => t

/-- The type wanted for argument `i` of a parameter list. -/
def typeAt : List (Param Ty) → Nat → Option Ty
  | [], _ => none
  | p :: ps, i =>
    if p.rest then some (restType p.type i)
    else
      match i with
      | 0 => some p.type
      | i + 1 => typeAt ps i

/-- The type wanted for argument `i`. -/
def paramType? (sig : Signature) (i : Nat) : Option Ty := typeAt sig.params i

/-- The signature in the type notation. -/
def render (sig : Signature) : Text :=
  (if sig.typeParams.isEmpty then ("" : Text)
   else "<" ++ Text.joinWith ", " (sig.typeParams.map Ty.declaration) ++ ">") ++
    "(" ++ Ty.paramList sig.params ++ ") => " ++ sig.ret.render

/-- Whether two signatures are the same, parameter names included. -/
def same (a b : Signature) : Bool :=
  a.params.length == b.params.length && a.typeParams.length == b.typeParams.length &&
    a.ret.same b.ret &&
    (a.params.zip b.params).all (fun (p, q) =>
      p.name == q.name && p.type.same q.type && p.optional == q.optional && p.rest == q.rest) &&
    (a.typeParams.zip b.typeParams).all fun (s, t) => s.same t

variable {m : Type → Type} [TypeStore m]

/-- The signature as a function type, without its type parameters. -/
def toType (sig : Signature) : m Ty := TypeStore.function sig.params sig.ret

/-- The signature with type parameters replaced; those that are not stay parameters of it. -/
def instantiate (sig : Signature) (subst : Subst) : m Signature := do
  let params ← sig.params.mapM fun p => do return { p with type := ← TypeStore.apply p.type subst }
  let ret ← TypeStore.apply sig.ret subst
  return { typeParams := sig.typeParams.filter fun v => (subst.get? v).isNone, params, ret }

end Signature
end FlowTyping
