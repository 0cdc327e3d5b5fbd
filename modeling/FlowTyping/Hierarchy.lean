import FlowTyping.Ty.Basic

/-!
# Class hierarchy

Classes are names with parents, declared one after the other. A class is declared once and only
after its parents, so the parent links never form a cycle and what a class derives from is settled
when it is declared.

* `Hierarchy.declare` adds a class or says why it cannot be added.
* `Hierarchy.derives` answers whether a class is another or reaches it by parent links. The newest
  class stands first in `classes`, so one sweep down the list meets every class before its parents.
-/

namespace FlowTyping

/-- A declared class. -/
structure ClassDecl where
  name : String
  parents : List String
  /-- The tagged object shape of its values, if one was declared. -/
  shape : Option Ty
  deriving Repr

/-- Why a class cannot be declared. -/
inductive ClassError where
  | redeclared (name : String)
  | undeclaredParent (name parent : String)
  deriving DecidableEq, Repr

def ClassError.message : ClassError → String
  | .redeclared name => "class " ++ name ++ " already declared"
  | .undeclaredParent name parent => "class " ++ name ++ " extends undeclared class " ++ parent

/-- The declared classes, the newest first. -/
structure Hierarchy where
  classes : List ClassDecl := []
  deriving Repr, Inhabited

namespace Hierarchy

/-- The declaration of a class. -/
def find? (h : Hierarchy) (name : String) : Option ClassDecl :=
  h.classes.find? (·.name == name)

/-- The names of all classes in order. -/
def names (h : Hierarchy) : List String :=
  (h.classes.map (·.name)).mergeSort fun a b => decide (a ≤ b)

/-- Adds a class that is new and whose parents are all declared. -/
def declare (h : Hierarchy) (c : ClassDecl) : Except ClassError Hierarchy :=
  if (h.find? c.name).isSome then .error (.redeclared c.name)
  else
    match c.parents.find? fun p => (h.find? p).isNone with
    | some p => .error (.undeclaredParent c.name p)
    | none => .ok { classes := c :: h.classes }

/-- Grows a set of names by the parents of its members, from the newest class to the oldest. -/
def sweep : List ClassDecl → List String → List String
  | [], reached => reached
  | c :: rest, reached =>
    sweep rest (if reached.contains c.name then c.parents ++ reached else reached)

/-- Whether `sub` is `tag` or reaches it by parent links. -/
def derives (h : Hierarchy) (sub tag : String) : Bool :=
  sub == tag || (sweep h.classes [sub]).contains tag

end Hierarchy
end FlowTyping
