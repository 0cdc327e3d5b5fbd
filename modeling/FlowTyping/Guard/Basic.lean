import FlowTyping.Ty.Printer

/-!
# Guards

A guard is a test that a condition makes of one variable and from whose outcome more is known about
the variable's type: `typeof x === "string"`, `x`, `x.kind === "circle"`, `"length" in x`,
`x instanceof Dog`, `isFish(x)`.
-/

namespace FlowTyping

/-- An equality operator. -/
inductive EqOp where
  | strictEq
  | strictNe
  | looseEq
  | looseNe
  deriving DecidableEq, Repr

namespace EqOp

def render : EqOp → String
  | .strictEq => "==="
  | .strictNe => "!=="
  | .looseEq => "=="
  | .looseNe => "!="

/-- Whether the operator tests for inequality. -/
def negated : EqOp → Bool
  | .strictNe | .looseNe => true
  | _ => false

/-- Whether the operator takes `null` and `undefined` for one value. -/
def loose : EqOp → Bool
  | .looseEq | .looseNe => true
  | _ => false

/-- The operator that is written like this. -/
def ofText? (s : String) : Option EqOp :=
  [strictEq, strictNe, looseEq, looseNe].find? fun op => op.render == s

end EqOp

/-- A variable, or one of its properties. -/
structure Ref where
  var : String
  prop : Option Text := none
  deriving DecidableEq, Repr

def Ref.render (r : Ref) : Text :=
  match r.prop with
  | none => r.var
  | some prop => r.var ++ "." ++ prop

/-- What a reference is compared with. -/
inductive Comparand where
  | type (t : Ty)
  /-- The type that a variable has at the time. -/
  | var (name : String)
  deriving Repr

def Comparand.render : Comparand → Text
  | .type t => t.render
  | .var name => name

/-- A test of one variable. -/
inductive Guard where
  /-- `typeof v === "tag"` -/
  | typeOf (var : String) (tag : Text)
  /-- `v` as a condition -/
  | truthy (var : String)
  /-- `v === right`, `v.prop != right`, … -/
  | equality (op : EqOp) (left : Ref) (right : Comparand)
  /-- `"prop" in v` -/
  | has (prop : Text) (var : String)
  /-- `v instanceof Tag` -/
  | instanceOf (var tag : String)
  /-- `v.prop === value`, as the cases of a switch ask it -/
  | discriminant (var : String) (prop : Text) (value : Ty)
  /-- `fn(…, v, …)` with `v` as argument number `position` -/
  | predicate (fn : String) (position : Int) (var : String)
  deriving Repr

namespace Guard

/-- The variable that the guard tests. -/
def target : Guard → String
  | .typeOf var _ => var
  | .truthy var => var
  | .equality _ left _ => left.var
  | .has _ var => var
  | .instanceOf var _ => var
  | .discriminant var _ _ => var
  | .predicate _ _ var => var

def render : Guard → Text
  | .typeOf var tag => "typeof " ++ var ++ " === " ++ Text.quoteText tag
  | .truthy var => var
  | .equality op left right => left.render ++ " " ++ op.render ++ " " ++ right.render
  | .has prop var => Text.quoteText prop ++ " in " ++ var
  | .instanceOf var tag => var ++ " instanceof " ++ tag
  | .discriminant var prop value => var ++ "." ++ prop ++ " === " ++ value.render
  | .predicate fn position var => fn ++ "(#" ++ toString position ++ ": " ++ var ++ ")"

end Guard

/-- What a predicate function says of its argument: the one at `position` is a `narrows` when the
function answers true. -/
structure PredicateDecl where
  position : Int
  narrows : Ty
  deriving Repr

/-- The declared predicates by function name; the latest declaration of a name stands first. -/
abbrev Predicates := List (String × PredicateDecl)

def Predicates.find? (ps : Predicates) (fn : String) : Option PredicateDecl := ps.lookup fn

end FlowTyping
