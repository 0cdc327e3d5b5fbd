import FlowTyping.Number.Basic
import FlowTyping.Text.Basic

/-!
# Types

The types of the language: seven atoms, unit types for single values, object shapes with an optional
class tag, tuples and arrays, functions, unions, intersections and type parameters.

A value of `Ty` is a tree and nothing more. Which trees are *canonical* (sorted, flattened, merged)
is the business of the operations that build them; two trees are the same type when their keys
agree (`Ty.key`).
-/

namespace FlowTyping

/-- A value that is a type of its own. -/
inductive Literal where
  | text (value : Text.Bytes)
  | number (value : Number)
  | bool (value : Bool)
  deriving DecidableEq, Repr

/-- A property of an object shape. -/
structure Property (α : Type) where
  name : Text
  type : α
  optional : Bool := false
  readonly : Bool := false
  deriving DecidableEq, Repr

/-- A positional element of a tuple. -/
structure Elem (α : Type) where
  type : α
  optional : Bool := false
  deriving DecidableEq, Repr

/-- A parameter of a function. A rest parameter carries its array type. -/
structure Param (α : Type) where
  name : String
  type : α
  optional : Bool := false
  rest : Bool := false
  deriving DecidableEq, Repr

/-- A type. -/
inductive Ty where
  | never
  | unknown
  | null
  | undefined
  | boolean
  | number
  | string
  | literal (value : Literal)
  /-- An object shape; the tag names a class, and is empty for a plain shape. -/
  | object (tag : String) (props : List (Property Ty))
  /-- Positional elements, then any number of `rest` elements. An array has only the latter. -/
  | tuple (elems : List (Elem Ty)) (rest : Option Ty)
  | function (params : List (Param Ty)) (ret : Ty)
  | union (members : List Ty)
  | inter (members : List Ty)
  /-- A type parameter with its upper bound. -/
  | var (name : String) (bound : Option Ty)
  deriving Repr, Inhabited

/-- The atom that a literal widens to. -/
def Literal.base : Literal → Ty
  | .text _ => .string
  | .number _ => .number
  | .bool _ => .boolean

/-- Whether a condition on the literal fails: an empty text, a zero, `false`. -/
def Literal.falsy : Literal → Bool
  | .text value => value.isEmpty
  | .number value => value.isZero
  | .bool value => !value

namespace Ty

/-- The atoms, which every universe holds from the start. -/
def atoms : List Ty := [.never, .unknown, .null, .undefined, .boolean, .number, .string]

/-- The word for a type's outermost constructor. -/
def kind : Ty → String
  | .never => "never"
  | .unknown => "unknown"
  | .null => "null"
  | .undefined => "undefined"
  | .boolean => "boolean"
  | .number => "number"
  | .string => "string"
  | .literal _ => "literal"
  | .object _ _ => "object"
  | .tuple _ _ => "tuple"
  | .function _ _ => "function"
  | .union _ => "union"
  | .inter _ => "intersection"
  | .var _ _ => "typevar"

def isNever : Ty → Bool
  | .never => true
  | _ => false

def isUnknown : Ty → Bool
  | .unknown => true
  | _ => false

def isUndefined : Ty → Bool
  | .undefined => true
  | _ => false

def isUnion : Ty → Bool
  | .union _ => true
  | _ => false

def isLiteral : Ty → Bool
  | .literal _ => true
  | _ => false

/-- Whether the type has exactly one value. -/
def isUnit : Ty → Bool
  | .literal _ | .null | .undefined => true
  | _ => false

/-- Whether the type is a plain array. -/
def isArray : Ty → Bool
  | .tuple [] (some _) => true
  | _ => false

/-- The alternatives of a type: none for `never`, the members of a union, else the type itself. -/
def members : Ty → List Ty
  | .never => []
  | .union ms => ms
  | t => [t]

/-- The property of an object shape by name. -/
def findProp? (props : List (Property Ty)) (name : Text) : Option (Property Ty) :=
  props.find? (·.name == name)

mutual
/-- Number of nodes of a type. -/
def size : Ty → Nat
  | .object _ props => 1 + sizeProps props
  | .tuple elems none => 1 + sizeElems elems
  | .tuple elems (some rest) => 1 + sizeElems elems + rest.size
  | .function params ret => 1 + sizeParams params + ret.size
  | .union ms => 1 + sizeAll ms
  | .inter ms => 1 + sizeAll ms
  | .var _ (some bound) => 1 + bound.size
  | _ => 1

def sizeProps : List (Property Ty) → Nat
  | [] => 0
  | ⟨_, t, _, _⟩ :: ps => t.size + sizeProps ps

def sizeElems : List (Elem Ty) → Nat
  | [] => 0
  | ⟨t, _⟩ :: es => t.size + sizeElems es

def sizeParams : List (Param Ty) → Nat
  | [] => 0
  | ⟨_, t, _, _⟩ :: ps => t.size + sizeParams ps

/-- Number of nodes of a list of types. -/
def sizeAll : List Ty → Nat
  | [] => 0
  | t :: ts => t.size + sizeAll ts
end

end Ty
end FlowTyping
