import FlowTyping.Relation.Basic

/-!
# Intersections

The intersection of some types is taken in three steps: nested intersections are opened and
repetitions dropped, a union among the members is distributed over, and then members are combined in
pairs until no two of them combine. Of two members one may imply the other, both may exclude each
other, or two object shapes with compatible tags may merge into one.
-/

namespace FlowTyping

namespace Ty

mutual
/-- The members of a type with nested intersections opened; `none` when `never` is among them. -/
def conjuncts : Ty → Option (List Ty)
  | .unknown => some []
  | .never => none
  | .inter ms => conjunctsAll ms
  | t => some [t]

/-- The members of several types. -/
def conjunctsAll : List Ty → Option (List Ty)
  | [] => some []
  | t :: ts =>
    match conjuncts t, conjunctsAll ts with
    | some first, some rest => some (first ++ rest)
    | _, _ => none
end

/-- The members of the first union in a list, and the other types. -/
def firstUnion? : List Ty → Option (List Ty × List Ty)
  | [] => none
  | .union ms :: rest => some (ms, rest)
  | t :: rest => (firstUnion? rest).map fun (ms, others) => (ms, t :: others)

end Ty

/-- What becomes of two members of an intersection. -/
inductive Fusion where
  /-- They stay side by side. -/
  | apart
  /-- They exclude each other. -/
  | empty
  /-- One type stands for both. -/
  | into (t : Ty)

/-- What a search for two members that combine comes to. -/
inductive Sweep where
  | stable
  | empty
  | fused (members : List Ty)

namespace Rules

variable {m : Type → Type} [TypeStore m] (r : Rules m)

/-- The tag of a merged shape: the more specific of the two, or `none` if neither class derives from
the other. -/
def mergedTag (h : Hierarchy) (a b : String) : Option String :=
  if a == b then some a
  else if a.isEmpty then some b
  else if b.isEmpty then some a
  else if h.derives a b then some a
  else if h.derives b a then some b
  else none

/-- The properties of a merged shape that come from its left side; a shared one is the intersection
of both. `none` when a property that one side requires has no value left. -/
def mergedProps (propsB : List (Property Ty)) :
    List (Property Ty) → m (Option (List (Property Ty)))
  | [] => pure (some [])
  | pa :: rest => do
    match Ty.findProp? propsB pa.name with
    | none =>
      match ← mergedProps propsB rest with
      | some ps => return some (pa :: ps)
      | none => return none
    | some pb =>
      let met ← r.intersect [pa.type, pb.type]
      if met.isNever && !(pa.optional && pb.optional) then return none
      else
        let p : Property Ty :=
          { name := pa.name
            type := met
            optional := pa.optional && pb.optional
            readonly := pa.readonly && pb.readonly }
        match ← mergedProps propsB rest with
        | some ps => return some (p :: ps)
        | none => return none

/-- Merges two object shapes. -/
def mergeObjects (a b : Ty) : m Fusion := do
  match a, b with
  | .object tagA propsA, .object tagB propsB =>
    match mergedTag (← TypeStore.hierarchy) tagA tagB with
    | none => return .apart
    | some tag =>
      match ← mergedProps r propsB propsA with
      | none => return .empty
      | some ps =>
        let extra := propsB.filter fun pb => (Ty.findProp? propsA pb.name).isNone
        return .into (← TypeStore.object tag (ps ++ extra))
  | _, _ => return .apart

/-- Combines two members. -/
def combine (a b : Ty) : m Fusion := do
  if ← r.subtype a b then return .into a
  else if ← r.subtype b a then return .into b
  else if ← r.disjoint a b then return .empty
  else mergeObjects r a b

/-- Combines `a` with the first of the following members that it combines with; the result takes
the place of `a`. -/
def fuseWith (a : Ty) : (before : List Ty) → List Ty → m Sweep
  | _, [] => pure .stable
  | before, b :: rest => do
    match ← combine r a b with
    | .apart => fuseWith a (before ++ [b]) rest
    | .empty => return .empty
    | .into t => return .fused (t :: before ++ rest)

/-- Combines the first two members that combine. -/
def fuseFirst : (before : List Ty) → List Ty → m Sweep
  | _, [] => pure .stable
  | before, a :: rest => do
    match ← fuseWith r a [] rest with
    | .stable => fuseFirst (before ++ [a]) rest
    | .empty => return .empty
    | .fused members => return .fused (before ++ members)

/-- Combines members until none do; `none` when two of them exclude each other. Each round removes a
member, so as many rounds as members suffice. -/
def fuseAll : (rounds : Nat) → List Ty → m (Option (List Ty))
  | 0, members => pure (some members)
  | n + 1, members => do
    match ← fuseFirst r [] members with
    | .stable => return some members
    | .empty => return none
    | .fused members => fuseAll n members

/-- The intersection of members none of which combine. -/
def interOf : List Ty → m Ty
  | [] => pure .unknown
  | [t] => pure t
  | ts => TypeStore.intern (.inter (Ty.sortByKey ts))

/-- Answers an intersection question. -/
def intersectStep (ts : List Ty) : m Ty := do
  match Ty.conjunctsAll ts with
  | none => return .never
  | some flat =>
    let flat := Ty.dedup flat
    match Ty.firstUnion? flat with
    | some (alternatives, others) =>
      TypeStore.union (← alternatives.mapM fun t => r.intersect (t :: others))
    | none =>
      match ← fuseAll r flat.length flat with
      | none => return .never
      | some members => interOf members

end Rules
end FlowTyping
