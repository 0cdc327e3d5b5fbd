import FlowTyping.Overload.Basic
import FlowTyping.Signature.Solve

/-!
# Resolving calls

A call takes the first signature, in the order of declaration, that fits the number of its arguments
and accepts each of them. A call that none fits is explained: by the argument or bound at fault for
a plain function, and for an overloaded one by saying whether the alternatives of some argument would
each have found a signature.
-/

namespace FlowTyping

/-- A call that was resolved, or not. -/
structure CallResult where
  callee : String
  args : List Ty
  /-- Position of the chosen signature and that signature with its type parameters replaced. -/
  chosen : Option (Nat × Signature)
  /-- The type of the call; `unknown` if no signature was chosen. -/
  ret : Ty
  findings : List Finding
  deriving Repr

/-- The outcome of trying one signature. -/
inductive Attempt where
  | fits (sig : Signature) (solution : Option Solution)
  /-- The argument at a position does not fit the parameter type. -/
  | badArg (position : Nat) (wanted : Ty)
  /-- Bindings of type parameters are not within their bounds. -/
  | badBounds (solution : Solution)
  /-- The number of arguments or of type arguments does not fit. -/
  | badCount

namespace OverloadSet

variable {m : Type → Type} [TypeStore m]

/-- The first argument, from position `i` on, that does not fit; with the type wanted there. -/
def firstBadArg (sig : Signature) : (i : Nat) → List Ty → m (Option (Nat × Ty))
  | _, [] => pure none
  | i, arg :: args => do
    let wanted := (sig.paramType? i).getD .never
    if ← TypeStore.subtype arg wanted then firstBadArg sig (i + 1) args
    else return some (i, wanted)

/-- Tries one signature. -/
def attempt (sig : Signature) (args explicit : List Ty) : m Attempt := do
  if !sig.accepts args.length then return .badCount
  else if !explicit.isEmpty && explicit.length != sig.typeParams.length then return .badCount
  else if sig.isGeneric then
    match ← sig.solve args explicit with
    | .error _ => return .badCount
    | .ok solution =>
      match ← firstBadArg solution.signature 0 args with
      | some (position, wanted) => return .badArg position wanted
      | none =>
        return if solution.ok then .fits solution.signature (some solution) else .badBounds solution
  else
    match ← firstBadArg sig 0 args with
    | some (position, wanted) => return .badArg position wanted
    | none => return .fits sig none

/-- The first signature, counted from `i`, that fits; else the attempts in order. -/
def tryAll (args explicit : List Ty) :
    (i : Nat) → List Signature → m (Except (List Attempt) (Nat × Signature × Option Solution))
  | _, [] => pure (.error [])
  | i, sig :: sigs => do
    match ← attempt sig args explicit with
    | .fits inst solution => return .ok (i, inst, solution)
    | failed =>
      match ← tryAll args explicit (i + 1) sigs with
      | .ok found => return .ok found
      | .error rest => return .error (failed :: rest)

/-- Position of the first signature, counted from `i`, that fits. -/
def firstFit (args explicit : List Ty) : (i : Nat) → List Signature → m (Option Nat)
  | _, [] => pure none
  | i, sig :: sigs => do
    match ← attempt sig args explicit with
    | .fits _ _ => return some i
    | _ => firstFit args explicit (i + 1) sigs

/-- The signatures that the alternatives of an argument find, each put in the argument's place;
`none` if one of them finds none. -/
def fitsOf (s : OverloadSet) (before after explicit : List Ty) : List Ty → m (Option (List Nat))
  | [] => pure (some [])
  | t :: ts => do
    match ← firstFit (before ++ t :: after) explicit 0 s.signatures with
    | none => return none
    | some i =>
      match ← fitsOf s before after explicit ts with
      | none => return none
      | some rest => return some (i :: rest)

/-- The signatures that the alternatives of some argument are spread over, in print. -/
def spread (s : OverloadSet) (explicit : List Ty) :
    (before : List Ty) → List Ty → m (Option (List Text))
  | _, [] => pure none
  | before, arg :: after => do
    if arg.members.length < 2 then spread s explicit (before ++ [arg]) after
    else
      match ← fitsOf s before after explicit arg.members with
      | none => spread s explicit (before ++ [arg]) after
      | some found =>
        if found.eraseDups.length < 2 then spread s explicit (before ++ [arg]) after
        else
          return some ((s.signatures.zipIdx.filter fun (_, i) => found.contains i).map
            fun (sig, _) => sig.render)

/-- The signatures in print. -/
def rendered (s : OverloadSet) : List Text := s.signatures.map Signature.render

/-- Why the signature of a plain function refused a call. -/
def explain (s : OverloadSet) (args : List Ty) : Attempt → List Finding
  | .badArg position wanted =>
    [.assignability ("argument " ++ toString (position + 1) ++ " of " ++ s.name)
      (args.getD position .never) wanted]
  | .badBounds solution => solution.findings
  | _ => [.noMatch s.name args s.rendered]

/-- Resolves a call. -/
def resolve (s : OverloadSet) (args explicit : List Ty) : m CallResult := do
  let refused (findings : List Finding) : CallResult :=
    { callee := s.name, args, chosen := none, ret := .unknown, findings }
  match ← tryAll args explicit 0 s.signatures with
  | .ok (i, sig, solution) =>
    return { callee := s.name, args, chosen := some (i, sig), ret := sig.ret,
             findings := (solution.map Solution.findings).getD [] }
  | .error attempts =>
    match s.overloaded, attempts with
    | false, first :: _ => return refused (s.explain args first)
    | _, _ =>
      match ← spread s explicit [] args with
      | some candidates => return refused [.ambiguous s.name args candidates]
      | none => return refused [.noMatch s.name args s.rendered]

end OverloadSet
end FlowTyping
