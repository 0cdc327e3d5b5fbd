import FlowTyping.Signature.Basic

/-!
# Overload sets

A function has one or more signatures in a fixed order and an implementation that covers them all. A
plain function is its own implementation.
-/

namespace FlowTyping

/-- A function with its callable signatures. -/
structure OverloadSet where
  name : String
  signatures : List Signature
  implementation : Signature
  deriving Repr

/-- Why an implementation does not cover an overload. -/
inductive Uncovered where
  | tooFewArguments (wanted : Nat)
  | tooManyArguments (limit : Nat)
  | param (position : Nat) (own impl : Ty)
  | ret (own impl : Ty)
  deriving Repr

def Uncovered.message : Uncovered → Text
  | .tooFewArguments wanted => "implementation requires " ++ toString wanted ++ " arguments"
  | .tooManyArguments limit => "implementation accepts at most " ++ toString limit ++ " arguments"
  | .param position own impl =>
    "parameter " ++ toString position ++ ": " ++ own.render ++ " is not assignable to " ++ impl.render
  | .ret own impl => "return type " ++ own.render ++ " is not compatible with " ++ impl.render

/-- An overload that its implementation does not cover. -/
structure IncompatibleOverload where
  name : String
  /-- Position among the overloads, from one. -/
  position : Nat
  signature : Signature
  reason : Uncovered
  deriving Repr

def IncompatibleOverload.message (e : IncompatibleOverload) : Text :=
  e.name ++ " overload " ++ toString e.position ++ " " ++ e.signature.render ++ ": " ++
    e.reason.message ++ ": overload signature is not compatible with its implementation"

namespace OverloadSet

/-- A plain function. -/
def single (name : String) (sig : Signature) : OverloadSet :=
  { name, signatures := [sig], implementation := sig }

/-- Whether there are signatures beside the implementation. -/
def overloaded (s : OverloadSet) : Bool :=
  match s.signatures with
  | [] => false
  | [sig] => !sig.same s.implementation
  | _ => true

variable {m : Type → Type} [TypeStore m]

/-- The first parameter that the implementation does not take, from position `i` on. Parameters that
mention type parameters are not compared. -/
def uncoveredParam (sig impl : Signature) : (i count : Nat) → m (Option Uncovered)
  | _, 0 => pure none
  | i, count + 1 => do
    match sig.paramType? i, impl.paramType? i with
    | some own, some wanted =>
      if !own.freeVars.isEmpty || !wanted.freeVars.isEmpty then uncoveredParam sig impl (i + 1) count
      else if ← TypeStore.subtype own wanted then uncoveredParam sig impl (i + 1) count
      else return some (.param (i + 1) own wanted)
    | _, _ => uncoveredParam sig impl (i + 1) count

/-- Why an implementation does not cover a signature. -/
def uncovered (sig impl : Signature) : m (Option Uncovered) := do
  let (least, greatest) := sig.arity
  let (implLeast, implGreatest) := impl.arity
  if least < implLeast then return some (.tooFewArguments implLeast)
  else
    match implGreatest.filter fun limit => greatest.all (limit < ·) with
    | some limit => return some (.tooManyArguments limit)
    | none =>
      match ← uncoveredParam sig impl 0 sig.params.length with
      | some reason => return some reason
      | none =>
        if !sig.ret.freeVars.isEmpty || !impl.ret.freeVars.isEmpty then return none
        else if ← TypeStore.subtype sig.ret impl.ret then return none
        else if ← TypeStore.subtype impl.ret sig.ret then return none
        else return some (.ret sig.ret impl.ret)

/-- The first of some overloads, counted from `position`, that an implementation does not cover. -/
def firstUncovered (name : String) (impl : Signature) :
    (position : Nat) → List Signature → m (Option IncompatibleOverload)
  | _, [] => pure none
  | position, sig :: sigs => do
    match ← uncovered sig impl with
    | some reason => return some { name, position, signature := sig, reason }
    | none => firstUncovered name impl (position + 1) sigs

/-- A function with overloads, each covered by the implementation. -/
def build (name : String) (sigs : List Signature) (impl : Signature) :
    m (Except IncompatibleOverload OverloadSet) := do
  if sigs.isEmpty then return .ok (single name impl)
  else
    match ← firstUncovered name impl 1 sigs with
    | some e => return .error e
    | none => return .ok { name, signatures := sigs, implementation := impl }

end OverloadSet
end FlowTyping
