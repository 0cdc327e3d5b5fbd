import FlowTyping.Ty.Key

/-!
# Types in print

How a type is written in the type notation. An object shape with a class tag is written as the
class; a function inside a union, and any compound inside an intersection or an array, stands in
parentheses.
-/

namespace FlowTyping.Ty

/-- The name a parameter is printed with: its own, or one made from its position. -/
def paramName (index : Nat) (name : String) : String :=
  if name.isEmpty then "arg" ++ toString index else name

/-- Whether the type needs parentheses inside an array or an intersection. -/
def isCompound : Ty → Bool
  | .union _ | .inter _ | .function _ _ => true
  | _ => false

/-- Whether the type needs parentheses inside a union. -/
def isFunction : Ty → Bool
  | .function _ _ => true
  | _ => false

/-- Parentheses where they are needed. -/
def parens (needed : Bool) (s : Text) : Text :=
  if needed then "(" ++ s ++ ")" else s

mutual
/-- The type in the type notation. -/
def render : Ty → Text
  | .never => "never"
  | .unknown => "unknown"
  | .null => "null"
  | .undefined => "undefined"
  | .boolean => "boolean"
  | .number => "number"
  | .string => "string"
  | .literal l => l.render
  | .object tag props =>
    if !tag.isEmpty then tag
    else if props.isEmpty then "\x7b\x7d"
    else "\x7b " ++ Text.joinWith "; " (renderProps props) ++ " \x7d"
  | .tuple [] (some rest) => parens rest.isCompound rest.render ++ "[]"
  | .tuple elems none => "[" ++ Text.joinWith ", " (renderElems elems) ++ "]"
  | .tuple elems (some rest) =>
    "[" ++ Text.joinWith ", " (renderElems elems ++ ["..." ++ parens rest.isCompound rest.render ++ "[]"])
      ++ "]"
  | .function params ret => "(" ++ Text.joinWith ", " (renderParams 0 params) ++ ") => " ++ ret.render
  | .union ms => Text.joinWith " | " (renderAlternatives ms)
  | .inter ms => Text.joinWith " & " (renderParts ms)
  | .var name _ => name

def renderProps : List (Property Ty) → List Text
  | [] => []
  | ⟨name, t, optional, readonly⟩ :: ps =>
    ((if readonly then "readonly " else "") ++ name ++ (if optional then "?" else "") ++ ": " ++
      t.render) :: renderProps ps

def renderElems : List (Elem Ty) → List Text
  | [] => []
  | ⟨t, optional⟩ :: es => (t.render ++ if optional then "?" else "") :: renderElems es

def renderParams (index : Nat) : List (Param Ty) → List Text
  | [] => []
  | ⟨name, t, optional, rest⟩ :: ps =>
    ((if rest then "..." else "") ++ paramName index name ++
      (if !rest && optional then "?" else "") ++ ": " ++ t.render) :: renderParams (index + 1) ps

def renderAlternatives : List Ty → List Text
  | [] => []
  | t :: ts => parens t.isFunction t.render :: renderAlternatives ts

def renderParts : List Ty → List Text
  | [] => []
  | t :: ts => parens t.isCompound t.render :: renderParts ts
end

/-- A parameter list as it stands between the parentheses of a signature. -/
def paramList (params : List (Param Ty)) : Text := Text.joinWith ", " (renderParams 0 params)

/-- A type parameter as it is declared, with its bound. -/
def declaration : Ty → Text
  | .var name (some bound) => name ++ " extends " ++ bound.render
  | t => t.render

end FlowTyping.Ty
