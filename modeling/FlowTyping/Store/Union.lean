import FlowTyping.Store.Basic

/-!
# Unions

The union of some types has their alternatives as members: nested unions are opened, `never` and
repetitions are dropped, a literal disappears beside its own atom, `true | false` is `boolean`, and
`unknown` swallows the rest. Two or more members are kept in the order of their keys.
-/

namespace FlowTyping

namespace Ty

mutual
/-- The alternatives of a type with nested unions opened; `none` when `unknown` is among them. -/
def alternatives : Ty → Option (List Ty)
  | .never => some []
  | .unknown => none
  | .union ms => alternativesAll ms
  | t => some [t]

/-- The alternatives of several types. -/
def alternativesAll : List Ty → Option (List Ty)
  | [] => some []
  | t :: ts =>
    match alternatives t, alternativesAll ts with
    | some first, some rest => some (first ++ rest)
    | _, _ => none
end

/-- Drops every pair whose key was seen before. -/
def dedupKeyed : (seen : List Text) → List (Text × Ty) → List Ty
  | _, [] => []
  | seen, (k, t) :: rest =>
    if seen.contains k then dedupKeyed seen rest else t :: dedupKeyed (k :: seen) rest

/-- Keeps the first of every run of types with one key. -/
def dedup (ts : List Ty) : List Ty := dedupKeyed [] (ts.map fun t => (t.key, t))

/-- Whether a type with this key is in the list. -/
def hasKey (k : Text) (ts : List Ty) : Bool := ts.any fun t => t.key == k

/-- Adds `boolean` to members that hold both of its values. -/
def addBoolean (ts : List Ty) : List Ty :=
  if hasKey (Ty.literal (.bool true)).key ts && hasKey (Ty.literal (.bool false)).key ts &&
      !hasKey Ty.boolean.key ts then ts ++ [.boolean]
  else ts

/-- Drops the literals whose atom is a member. -/
def dropAbsorbed (ts : List Ty) : List Ty :=
  let keys := ts.map Ty.key
  ts.filter fun
    | .literal l => !keys.contains l.base.key
    | _ => true

end Ty

namespace TypeStore

variable {m : Type → Type} [TypeStore m]

/-- The union of members that are distinct and need no further simplification. -/
def unionOf : List Ty → m Ty
  | [] => pure .never
  | [t] => pure t
  | ts => intern (.union (Ty.sortByKey ts))

/-- The union of types. -/
def union (ts : List Ty) : m Ty := do
  match Ty.alternativesAll ts with
  | none => return .unknown
  | some flat =>
    -- both booleans are kept from the first union on, needed or not
    let _ ← literal (.bool true)
    let _ ← literal (.bool false)
    unionOf (Ty.dropAbsorbed (Ty.addBoolean (Ty.dedup flat)))

/-- The union of two types. -/
def join (a b : Ty) : m Ty := union [a, b]

/-- The union of the alternatives that pass a test. -/
def filterMembers (t : Ty) (keep : Ty → Bool) : m Ty := union (t.members.filter keep)

/-- The type without one of its alternatives. -/
def remove (t member : Ty) : m Ty := filterMembers t fun x => !x.same member

end TypeStore
end FlowTyping
