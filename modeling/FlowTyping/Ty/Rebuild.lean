import FlowTyping.Relation.Answers

/-!
# Rebuilding types

`rebuild` sends a type through the constructors of a store from the leaves up and replaces type
parameters on the way. `apply` is that for a substitution; `normalize` finds the tree that the store
keeps for a type, and rebuilds one that comes from another store.
-/

namespace FlowTyping

/-- A type parameter and the type that it stands for. -/
structure Binding where
  param : Ty
  type : Ty
  deriving Repr

/-- What some type parameters stand for; each occurs once. -/
abbrev Subst := List Binding

/-- The name of a type parameter; empty for any other type. -/
def Ty.varName : Ty → String
  | .var name _ => name
  | _ => ""

namespace Subst

/-- What a type parameter stands for. -/
def get? (subst : Subst) (param : Ty) : Option Ty :=
  (subst.find? (·.param.same param)).map (·.type)

/-- Adds a binding, in place of one for the same parameter. -/
def add (subst : Subst) (param type : Ty) : Subst :=
  subst.filter (!·.param.same param) ++ [⟨param, type⟩]

/-- The bindings in the order of the parameters' names. -/
def byName (subst : Subst) : List Binding :=
  subst.mergeSort fun a b => decide (a.param.varName ≤ b.param.varName)

end Subst

namespace Ty

mutual
/-- Collects the type parameters of a type, those inside bounds included. -/
def collectVars (found : List Ty) : Ty → List Ty
  | .var name bound =>
    if found.any (·.same (.var name bound)) then found
    else
      match bound with
      | none => .var name none :: found
      | some b => collectVars (.var name (some b) :: found) b
  | .object _ props => collectProps found props
  | .tuple elems none => collectElems found elems
  | .tuple elems (some rest) => collectVars (collectElems found elems) rest
  | .function params ret => collectVars (collectParams found params) ret
  | .union ms => collectAll found ms
  | .inter ms => collectAll found ms
  | _ => found

def collectProps (found : List Ty) : List (Property Ty) → List Ty
  | [] => found
  | ⟨_, t, _, _⟩ :: ps => collectProps (collectVars found t) ps

def collectElems (found : List Ty) : List (Elem Ty) → List Ty
  | [] => found
  | ⟨t, _⟩ :: es => collectElems (collectVars found t) es

def collectParams (found : List Ty) : List (Param Ty) → List Ty
  | [] => found
  | ⟨_, t, _, _⟩ :: ps => collectParams (collectVars found t) ps

def collectAll (found : List Ty) : List Ty → List Ty
  | [] => found
  | t :: ts => collectAll (collectVars found t) ts
end

/-- The type parameters that occur in a type. -/
def freeVars (t : Ty) : List Ty := collectVars [] t

end Ty

namespace TypeStore

variable {m : Type → Type} [TypeStore m]

mutual
/-- Rebuilds a type with its parameters replaced. A replacement is taken as it is. -/
def rebuild (subst : Subst) : Ty → m Ty
  | .literal value => literal value
  | .object tag props => do object tag (← rebuildProps subst props)
  | .tuple elems none => do tuple (← rebuildElems subst elems) none
  | .tuple elems (some rest) => do
    let elems ← rebuildElems subst elems
    tuple elems (some (← rebuild subst rest))
  | .function params ret => do
    let params ← rebuildParams subst params
    function params (← rebuild subst ret)
  | .union ms => do union (← rebuildAll subst ms)
  | .inter ms => do intersect (← rebuildAll subst ms)
  | .var name none =>
    match subst.get? (.var name none) with
    | some t => pure t
    | none => typeVar name none
  | .var name (some bound) =>
    match subst.get? (.var name (some bound)) with
    | some t => pure t
    | none => do typeVar name (some (← rebuild subst bound))
  | t => pure t

def rebuildProps (subst : Subst) : List (Property Ty) → m (List (Property Ty))
  | [] => pure []
  | ⟨name, t, optional, readonly⟩ :: ps => do
    let t ← rebuild subst t
    return ⟨name, t, optional, readonly⟩ :: (← rebuildProps subst ps)

def rebuildElems (subst : Subst) : List (Elem Ty) → m (List (Elem Ty))
  | [] => pure []
  | ⟨t, optional⟩ :: es => do
    let t ← rebuild subst t
    return ⟨t, optional⟩ :: (← rebuildElems subst es)

def rebuildParams (subst : Subst) : List (Param Ty) → m (List (Param Ty))
  | [] => pure []
  | ⟨name, t, optional, rest⟩ :: ps => do
    let t ← rebuild subst t
    return ⟨name, t, optional, rest⟩ :: (← rebuildParams subst ps)

def rebuildAll (subst : Subst) : List Ty → m (List Ty)
  | [] => pure []
  | t :: ts => do
    let t ← rebuild subst t
    return t :: (← rebuildAll subst ts)
end

/-- The tree that the store keeps for a type. -/
def normalize (t : Ty) : m Ty := do
  match ← lookup? t.key with
  | some kept => return kept
  | none => rebuild [] t

/-- The type with its bound parameters replaced; others stay. -/
def apply (t : Ty) (subst : Subst) : m Ty :=
  if subst.isEmpty then normalize t else rebuild subst t

end TypeStore
end FlowTyping
