import FlowTyping.Store.Union

/-!
# The four questions about types

Subtyping, disjointness, property lookup and intersection need one another: a shape is compared
property by property, a property of an intersection is an intersection, and an intersection asks
which of its members imply or exclude each other.

`Rules` holds one answer to each of the four. The modules beside this one give every rule in terms
of a `Rules` for the smaller questions that it asks, and `FlowTyping.Relation.Answers` ties the knot.
-/

namespace FlowTyping

/-- Answers to the four questions. -/
structure Rules (m : Type → Type) where
  subtype : Ty → Ty → m Bool
  disjoint : Ty → Ty → m Bool
  propertyOf : Ty → Text → m (Option (Property Ty))
  intersect : List Ty → m Ty

end FlowTyping
