import FlowTyping.Relation.Disjoint
import FlowTyping.Relation.Intersect
import FlowTyping.Relation.Property
import FlowTyping.Relation.Subtype

/-!
# Answers

`Rules.upTo n` answers questions that need at most `n` nested steps. Every question about a type ends
within a number of steps that its size bounds (`stepBound`), because the intersections that arise on
the way never nest deeper than the types they come from. That is so where keys tell types apart. Where
they do not, a type of any size may stand under the key of an intersection, and a question that runs out
of steps for that reason is dropped: it has no positive answer, and nothing of it is kept.

The operations of the public interface — `subtype`, `disjoint`, `propertyOf`, `intersect`, `meet`,
`keysOf` — take that bound and show none of it.
-/

namespace FlowTyping

namespace Rules

variable {m : Type → Type} [TypeStore m]

/-- Answers with at most `n` nested steps; past them a question has no positive answer. -/
def upTo : (n : Nat) → Rules m
  | 0 =>
    { subtype := fun _ _ => do TypeStore.giveUp; return false
      disjoint := fun _ _ => do TypeStore.giveUp; return false
      propertyOf := fun _ _ => do TypeStore.giveUp; return none
      intersect := fun _ => do TypeStore.giveUp; return .never }
  | n + 1 =>
    { subtype := fun a b => subtypeStep (upTo n) a b
      disjoint := fun a b => disjointStep (upTo n) a b
      propertyOf := fun t name => propertyStep (upTo n) t name
      intersect := fun ts => intersectStep (upTo n) ts }

end Rules

/-- Number of nested steps that questions about the given types may take. -/
def stepBound (ts : List Ty) : Nat :=
  let n := Ty.sizeAll ts + 8
  16 * n * n

namespace TypeStore

variable {m : Type → Type} [TypeStore m]

/-- Whether every value of `a` may stand where a `b` is wanted. -/
def subtype (a b : Ty) : m Bool := bounded false ((Rules.upTo (stepBound [a, b])).subtype a b)

/-- Whether `a` and `b` provably share no value. -/
def disjoint (a b : Ty) : m Bool := bounded false ((Rules.upTo (stepBound [a, b])).disjoint a b)

/-- The property of a type under a name. -/
def propertyOf (t : Ty) (name : Text) : m (Option (Property Ty)) :=
  bounded none ((Rules.upTo (stepBound [t])).propertyOf t name)

/-- The intersection of types. -/
def intersect (ts : List Ty) : m Ty := bounded .never ((Rules.upTo (stepBound ts)).intersect ts)

/-- The intersection of two types. -/
def meet (a b : Ty) : m Ty := intersect [a, b]

/-- The union of the names of an object shape's properties, as text literals. -/
def keysOf : Ty → m Ty
  | .object _ props => do
    union (← props.mapM fun p => literal (.text p.name.toList))
  | _ => pure .never

end TypeStore
end FlowTyping
