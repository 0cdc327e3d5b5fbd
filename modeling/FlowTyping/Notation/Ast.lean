import FlowTyping.Ty.Basic

/-!
# The type notation as trees

What the grammar yields: types, signatures, conditions, values and calls whose names are not looked
up yet. Offsets count bytes of the source.
-/

namespace FlowTyping.Notation

/-- An element of a written tuple. -/
structure ElemExpr (α : Type) where
  type : α
  optional : Bool := false
  rest : Bool := false
  offset : Nat
  deriving Repr

/-- A parameter of a written function or signature. -/
structure ParamExpr (α : Type) where
  name : String
  type : α
  optional : Bool := false
  rest : Bool := false
  offset : Nat
  deriving Repr

/-- A written type. -/
inductive TypeExpr where
  | union (members : List TypeExpr)
  | inter (members : List TypeExpr)
  | array (elem : TypeExpr)
  | text (value : Text.Bytes)
  | number (value : Number)
  | name (name : String) (offset : Nat)
  | keyof (of : TypeExpr)
  | object (props : List (Property TypeExpr))
  | tuple (elems : List (ElemExpr TypeExpr))
  | function (params : List (ParamExpr TypeExpr)) (ret : TypeExpr)
  deriving Repr, Inhabited

/-- A written type parameter. -/
structure TypeParamExpr where
  name : String
  bound : Option TypeExpr
  deriving Repr

/-- A written signature. -/
structure SignatureExpr where
  typeParams : List TypeParamExpr
  params : List (ParamExpr TypeExpr)
  ret : TypeExpr
  deriving Repr

/-- A variable, or a property of one. -/
structure RefExpr where
  var : String
  prop : Option Text := none
  deriving Repr

/-- A written value. -/
inductive ValueExpr where
  | var (name : String)
  | field (var : String) (prop : Text)
  | new (className : String) (offset : Nat)
  /-- Some value of a type. -/
  | const (type : TypeExpr)
  deriving Repr

/-- The right side of a comparison. -/
inductive RightExpr where
  | var (name : String)
  | type (type : TypeExpr)
  deriving Repr

/-- A written condition. -/
inductive CondExpr where
  | or (left right : CondExpr)
  | and (left right : CondExpr)
  | not (cond : CondExpr)
  /-- A condition that is not looked into. -/
  | unread
  | typeOf (var op : String) (tag : Text)
  | has (prop : Text) (var : String)
  | instanceOf (ref : RefExpr) (className : String)
  | truthy (ref : RefExpr)
  | compare (ref : RefExpr) (op : String) (right : RightExpr)
  | predicate (fn : String) (args : List ValueExpr) (offset : Nat)
  deriving Repr

/-- A written call. -/
structure CallExpr where
  callee : String
  typeArgs : List TypeExpr
  args : List ValueExpr
  deriving Repr

end FlowTyping.Notation
