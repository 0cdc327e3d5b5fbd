import FlowTyping.Number.Decimal
import FlowTyping.Text.Quoted
import FlowTyping.Ty.Basic

/-!
# Keys

The key of a type is the text under which a universe keeps it. It holds all of the type except the
names of function parameters, so functions that differ in those alone are one type.

Sets of members are ordered by key.
-/

namespace FlowTyping

/-- How a literal is written, in keys and in print. -/
def Literal.render : Literal → String
  | .text value => Text.quote value
  | .number value => value.render
  | .bool value => if value then "true" else "false"

namespace Ty

mutual
/-- The key of a type. -/
def key : Ty → Text
  | .never => "never"
  | .unknown => "unknown"
  | .null => "null"
  | .undefined => "undefined"
  | .boolean => "boolean"
  | .number => "number"
  | .string => "string"
  | .literal l => "lit:" ++ l.base.kind ++ ":" ++ l.render
  | .object tag props => "obj<" ++ tag ++ ">\x7b" ++ keyProps props ++ "\x7d"
  | .tuple elems none => "tup[" ++ Text.joinWith "," (keyElems elems) ++ "]"
  | .tuple elems (some rest) =>
    "tup[" ++ Text.joinWith "," (keyElems elems) ++ ",..." ++ rest.key ++ "]"
  | .function params ret => "fn(" ++ Text.joinWith "," (keyParams params) ++ ")=>" ++ ret.key
  | .union ms => "U(" ++ Text.joinWith "|" (keys ms) ++ ")"
  | .inter ms => "I(" ++ Text.joinWith "&" (keys ms) ++ ")"
  | .var name none => "var:" ++ name
  | .var name (some bound) => "var:" ++ name ++ "<:" ++ bound.key

/-- Every property is closed by a semicolon; `?` marks an optional one, `!` a readonly one. -/
def keyProps : List (Property Ty) → Text
  | [] => ""
  | ⟨name, t, optional, readonly⟩ :: ps =>
    name ++ (if optional then "?" else "") ++ (if readonly then "!" else "") ++ ":" ++
      t.key ++ ";" ++ keyProps ps

def keyElems : List (Elem Ty) → List Text
  | [] => []
  | ⟨t, optional⟩ :: es => (t.key ++ if optional then "?" else "") :: keyElems es

/-- A rest parameter is marked as such whether or not it is optional. -/
def keyParams : List (Param Ty) → List Text
  | [] => []
  | ⟨_, t, optional, rest⟩ :: ps =>
    ((if rest then "..." else if optional then "?" else "") ++ t.key) :: keyParams ps

def keys : List Ty → List Text
  | [] => []
  | t :: ts => t.key :: keys ts
end

/-- Two trees are the same type when their keys agree. -/
def same (a b : Ty) : Bool := a.key == b.key

/-- Members in the order of their keys. -/
def sortByKey (ts : List Ty) : List Ty :=
  ((ts.map fun t => (t.key, t)).mergeSort fun a b => decide (a.1 ≤ b.1)).map (·.2)

end Ty
end FlowTyping
