import FlowTyping.Hierarchy
import FlowTyping.Ty.Key

/-!
# Where types live

Every operation on types is written once, over a `TypeStore`: a place that keeps one tree per key,
knows the class hierarchy and may remember answers to subtype questions.

Two stores matter. A `Universe` (see `FlowTyping.Universe`) is the one that programs run in. The
store `Ideal h` keeps nothing: a computation in it is its plain value over the hierarchy `h`, which
is the reading that statements about the operations are made for.

Questions about types are answered in a number of steps (see `FlowTyping.Relation.Answers`). A store
knows whether they have sufficed, and forgets what was done for a question for which they have not.

The constructors here put a type into canonical shape (properties sorted by name, the last of a
repeated name winning) and hand it to the store.
-/

namespace FlowTyping

/-- A place that keeps types. -/
class TypeStore (m : Type → Type) extends Monad m where
  /-- Keeps the type under its key, unless one is kept there; answers the one that is kept. -/
  intern : Ty → m Ty
  /-- The type kept under a key. -/
  lookup? : Text → m (Option Ty)
  /-- The declared classes. -/
  hierarchy : m Hierarchy
  /-- A remembered answer to whether the type of the first key is a subtype of that of the second. -/
  answered? : Text × Text → m (Option Bool)
  /-- Remembers an answer. -/
  remember : Text × Text → Bool → m Unit
  /-- Notes that the question at hand has run out of steps. -/
  giveUp : m Unit
  /-- Asks a question. If it runs out of steps, it has the given answer and leaves no trace. -/
  bounded : {α : Type} → α → m α → m α

/-- Computations over a fixed class hierarchy that keep nothing. -/
def Ideal (_ : Hierarchy) (α : Type) : Type := α

namespace Ideal

instance (h : Hierarchy) : Monad (Ideal h) := inferInstanceAs (Monad Id)

instance (h : Hierarchy) : LawfulMonad (Ideal h) := inferInstanceAs (LawfulMonad Id)

instance (h : Hierarchy) : TypeStore (Ideal h) where
  intern t := (t : Ty)
  lookup? _ := (none : Option Ty)
  hierarchy := h
  answered? _ := (none : Option Bool)
  remember _ _ := ()
  giveUp := ()
  bounded _ question := question

end Ideal

namespace TypeStore

variable {m : Type → Type} [TypeStore m]

/-- A unit type. -/
def literal (value : Literal) : m Ty := intern (.literal value)

/-- Puts a property into a list sorted by name, in place of one of the same name. -/
def insertProp (p : Property Ty) : List (Property Ty) → List (Property Ty)
  | [] => [p]
  | q :: qs =>
    if p.name < q.name then p :: q :: qs
    else if p.name == q.name then p :: qs
    else q :: insertProp p qs

/-- Properties sorted by name; the last of a repeated name wins. -/
def sortProps (props : List (Property Ty)) : List (Property Ty) :=
  props.foldl (fun sorted p => insertProp p sorted) []

/-- An object shape; an empty tag makes a plain one. -/
def object (tag : String) (props : List (Property Ty)) : m Ty :=
  intern (.object tag (sortProps props))

/-- A tuple. Its required elements stand before its optional ones (see `firstMisplaced`). -/
def tuple (elems : List (Elem Ty)) (rest : Option Ty) : m Ty := intern (.tuple elems rest)

/-- An array. -/
def array (elem : Ty) : m Ty := tuple [] (some elem)

/-- A function type. -/
def function (params : List (Param Ty)) (ret : Ty) : m Ty := intern (.function params ret)

/-- A type parameter, identified by its name and bound. -/
def typeVar (name : String) (bound : Option Ty) : m Ty := intern (.var name bound)

/-- The position of the first required element that follows an optional one, counting from
`index`. -/
def firstMisplaced (index : Nat) (seenOptional : Bool) : List (Elem Ty) → Option Nat
  | [] => none
  | e :: es =>
    if e.optional then firstMisplaced (index + 1) true es
    else if seenOptional then some index
    else firstMisplaced (index + 1) false es

end TypeStore
end FlowTyping
