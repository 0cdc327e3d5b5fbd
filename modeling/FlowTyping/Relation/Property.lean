import FlowTyping.Relation.Basic

/-!
# Properties

The property that a type has under a name. Texts, tuples and arrays have a `length`; the length of a
text literal is itself a literal. An intersection has the properties of all its members, a union
those that every member has.
-/

namespace FlowTyping.Rules

variable {m : Type → Type} [TypeStore m] (r : Rules m)

/-- Name of the one property of values that are no objects. -/
def lengthName : Text := "length"

/-- Number of symbols of a byte string, as a type. -/
def lengthLiteral (value : Text.Bytes) : Literal := .number (Number.ofNat (Text.decode value).length)

/-- The properties of those members that have one, in order. -/
def foundProps (name : Text) : List Ty → m (List (Property Ty))
  | [] => pure []
  | t :: ts => do
    match ← r.propertyOf t name with
    | some p => return p :: (← foundProps name ts)
    | none => foundProps name ts

/-- The property that has all of several at once: it is optional or readonly only if all are. -/
def meetProps (merged : Property Ty) : List (Property Ty) → m (Property Ty)
  | [] => pure merged
  | p :: ps => do
    let t ← r.intersect [merged.type, p.type]
    meetProps
      { merged with
        type := t
        optional := merged.optional && p.optional
        readonly := merged.readonly && p.readonly } ps

/-- The property of every member, or `none` if one of them has none. -/
def sharedProps (name : Text) : List Ty → m (Option (List (Property Ty)))
  | [] => pure (some [])
  | t :: ts => do
    match ← r.propertyOf t name with
    | some p =>
      match ← sharedProps name ts with
      | some ps => return some (p :: ps)
      | none => return none
    | none => return none

/-- Answers a question for a property. -/
def propertyStep (t : Ty) (name : Text) : m (Option (Property Ty)) := do
  match t with
  | .object _ props => return Ty.findProp? props name
  | .tuple _ _ | .string =>
    return if name == lengthName then some { name, type := .number } else none
  | .literal (.text value) =>
    if name == lengthName then
      return some { name, type := ← TypeStore.literal (lengthLiteral value) }
    else return none
  | .var _ (some bound) => r.propertyOf bound name
  | .inter ms =>
    match ← foundProps r name ms with
    | [] => return none
    | p :: ps => return some (← meetProps r p ps)
  | .union ms =>
    match ← sharedProps r name ms with
    | none => return none
    | some ps =>
      return some
        { name
          type := ← TypeStore.union (ps.map (·.type))
          optional := ps.any (·.optional)
          readonly := ps.any (·.readonly) }
  | _ => return none

end FlowTyping.Rules
