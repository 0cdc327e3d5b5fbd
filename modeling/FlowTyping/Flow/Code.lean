import FlowTyping.Guard.Basic

/-!
# Function bodies

The code that flow graphs are made of: values, calls, switches, conditions and statements. Values are
known by what can be said of their type; what they are computed from is not represented.
-/

namespace FlowTyping

/-- A value. -/
inductive Value where
  /-- Some value of a type. -/
  | const (type : Ty)
  | var (name : String)
  | field (var : String) (prop : Text)
  deriving Repr

def Value.render : Value → Text
  | .const t => t.render
  | .var name => name
  | .field owner prop => owner ++ "." ++ prop

/-- A call. -/
structure CallSite where
  callee : String
  args : List Value
  typeArgs : List Ty := []
  /-- The variable that takes the result. -/
  result : Option String := none
  /-- Whether that variable is declared by the call. -/
  declare : Bool := false
  deriving Repr

def CallSite.render (c : CallSite) : Text :=
  let typeArgs : Text :=
    if c.typeArgs.isEmpty then "" else "<" ++ Text.joinWith ", " (c.typeArgs.map Ty.render) ++ ">"
  (match c.result with
   | some result => result ++ " = "
   | none => "") ++
    c.callee ++ typeArgs ++ "(" ++ Text.joinWith ", " (c.args.map Value.render) ++ ")"

/-- A switch over a variable or one of its properties. It has a successor for each case value and a
last one for the default clause, or for the code after the switch if there is none. -/
structure SwitchSite where
  var : String
  prop : Option Text := none
  cases : List Ty
  hasDefault : Bool := false
  deriving Repr

def SwitchSite.render (s : SwitchSite) : Text :=
  "switch " ++ ({ var := s.var, prop := s.prop : Ref }).render ++ " [" ++
    Text.joinWith ", " (s.cases.map Ty.render) ++ "]"

/-- A condition: tests joined by short-circuit connectives. A test without a guard says nothing
about types. -/
inductive Cond where
  | test (guard : Option Guard)
  | not (cond : Cond)
  | and (left right : Cond)
  | or (left right : Cond)
  deriving Repr

/-- A statement. A missing block is an empty one. -/
inductive Stmt where
  /-- Declares a variable; without a value it is `undefined`. -/
  | declare (name : String) (ascribed : Option Ty) (value : Option Value)
  /-- An assignment; one without a value cannot be part of a graph. -/
  | assign (name : String) (value : Option Value)
  | call (site : CallSite)
  | ret (value : Option Value)
  | throw (value : Option Value)
  /-- A conditional; one without a condition is refused. -/
  | cond (cond : Option Cond) (yes no : List Stmt)
  /-- A loop; without a condition it goes on until a `leave`. -/
  | loop (cond : Option Cond) (body : List Stmt)
  /-- A switch; the values of a clause share its body. -/
  | switch (var : String) (prop : Option Text) (clauses : List (List Ty × List Stmt))
      (default : Option (List Stmt))
  /-- Leaves the innermost loop or switch. -/
  | leave
  /-- Goes back to the head of the innermost loop. -/
  | again
  deriving Repr

/-- The site of a switch statement: its cases are the values of all clauses in order. -/
def SwitchSite.ofClauses (v : String) (prop : Option Text) (clauses : List (List Ty × List Stmt))
    (default : Option (List Stmt)) : SwitchSite :=
  { var := v, prop, cases := clauses.flatMap (·.1), hasDefault := default.isSome }

end FlowTyping
