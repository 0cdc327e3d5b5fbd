import FlowTyping.Relation.Basic

/-!
# Disjointness

Two types are disjoint when they provably share no value: they belong to different sorts of value,
are different literals, disagree on a property that both require, or are tuples of different fixed
lengths or with disjoint required elements. A type is never disjoint from one of its supertypes: a
text, for one, has the shape of anything with a length.
-/

namespace FlowTyping

/-- The sort of value that a type holds. -/
inductive ValueSort where
  | null | undefined | boolean | number | string | object
  deriving DecidableEq, Repr

namespace Ty

/-- The sort of all values of a type, where one is known. A type parameter has that of its bound,
unless the bound is a union. -/
def sort? : Ty → Option ValueSort
  | .null => some .null
  | .undefined => some .undefined
  | .boolean => some .boolean
  | .number => some .number
  | .string => some .string
  | .object _ _ | .tuple _ _ | .function _ _ => some .object
  | .literal (.text _) => some .string
  | .literal (.number _) => some .number
  | .literal (.bool _) => some .boolean
  | .var _ (some (.union _)) => none
  | .var _ (some bound) => sort? bound
  | _ => none

/-- Whether two types are known to hold values of different sorts. -/
def differInSort (a b : Ty) : Bool :=
  match a.sort?, b.sort? with
  | some s, some t => s != t
  | _, _ => false

end Ty

namespace Rules

variable {m : Type → Type} [TypeStore m] (r : Rules m)

/-- Whether two shapes disagree on a property that both require. -/
def propsDisjoint (propsA propsB : List (Property Ty)) : m Bool :=
  propsA.anyM fun pa =>
    match Ty.findProp? propsB pa.name with
    | some pb => if pa.optional || pb.optional then pure false else r.disjoint pa.type pb.type
    | none => pure false

/-- Whether two tuples have disjoint required elements at some position. -/
def elemsDisjoint : List (Elem Ty) → List (Elem Ty) → m Bool
  | ea :: as, eb :: bs => do
    if !ea.optional && !eb.optional then
      if ← r.disjoint ea.type eb.type then pure true else elemsDisjoint as bs
    else elemsDisjoint as bs
  | _, _ => pure false

/-- Whether no element is optional. -/
def allRequired (elems : List (Elem Ty)) : Bool := elems.all fun e => !e.optional

/-- Compares the parts of two types of one sort. -/
def partsDisjoint (a b : Ty) : m Bool :=
  match a, b with
  | .literal _, .literal _ => pure true
  | .object _ propsA, .object _ propsB => propsDisjoint r propsA propsB
  | .tuple elemsA restA, .tuple elemsB restB =>
    if restA.isNone && restB.isNone && allRequired elemsA && allRequired elemsB &&
        elemsA.length != elemsB.length then pure true
    else elemsDisjoint r elemsA elemsB
  | _, _ => pure false

/-- Answers a disjointness question. -/
def disjointStep (a b : Ty) : m Bool := do
  if a.same b then pure a.isNever
  else if a.isNever || b.isNever then pure true
  else if a.isUnion || b.isUnion then
    a.members.allM fun ta => b.members.allM fun tb => r.disjoint ta tb
  else if ← r.subtype a b then pure false
  else if ← r.subtype b a then pure false
  else if a.differInSort b then pure true
  else partsDisjoint r a b

end Rules
end FlowTyping
