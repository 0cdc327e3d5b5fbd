import FlowTyping.Ty.Printer

/-!
# Findings

What an analysis reports about a program: a finding says what is wrong, a diagnostic says where. A
finding carries the types it is about; its code, severity and message follow from it.
-/

namespace FlowTyping

/-- How much a finding matters. -/
inductive Severity where
  | advisory
  | warning
  | error
  deriving DecidableEq, Repr

def Severity.title : Severity → String
  | .advisory => "advisory"
  | .warning => "warning"
  | .error => "error"

/-- The kinds of finding. -/
inductive FindingKind where
  | nonExhaustive
  | ambiguous
  | noMatch
  | constraint
  | underconstrained
  | assignability
  | budget
  deriving DecidableEq, Repr

namespace FindingKind

def all : List FindingKind :=
  [.nonExhaustive, .ambiguous, .noMatch, .constraint, .underconstrained, .assignability, .budget]

/-- The name of a kind. -/
def title : FindingKind → String
  | .nonExhaustive => "NonExhaustiveMatch"
  | .ambiguous => "AmbiguousOverload"
  | .noMatch => "NoMatchingOverload"
  | .constraint => "ConstraintViolation"
  | .underconstrained => "UnderconstrainedTypeVar"
  | .assignability => "AssignabilityError"
  | .budget => "AnalysisBudgetExceeded"

/-- The stable identifier of a kind. -/
def code : FindingKind → String
  | .nonExhaustive => "non_exhaustive_match"
  | .ambiguous => "ambiguous_overload"
  | .noMatch => "no_matching_overload"
  | .constraint => "constraint_violation"
  | .underconstrained => "underconstrained_type_var"
  | .assignability => "assignability_error"
  | .budget => "analysis_budget_exceeded"

/-- The kind of an identifier or a name. -/
def ofCode? (code : String) : Option FindingKind :=
  all.find? fun k => k.code == code || k.title == code

/-- A switch that misses cases is a warning, a type parameter that nothing determines an advisory;
all else is an error. -/
def severity : FindingKind → Severity
  | .nonExhaustive => .warning
  | .underconstrained => .advisory
  | _ => .error

end FindingKind

/-- What is wrong. -/
inductive Finding where
  /-- A switch leaves some alternatives unhandled. -/
  | nonExhaustive (residual : Ty)
  /-- The alternatives of an argument need different overloads. -/
  | ambiguous (callee : String) (args : List Ty) (candidates : List Text)
  /-- No overload takes the arguments. -/
  | noMatch (callee : String) (args : List Ty) (candidates : List Text)
  /-- What was inferred for a type parameter is not within its bound. -/
  | constraint (typeVar : String) (lower bound : Ty)
  /-- Nothing determines a type parameter. -/
  | underconstrained (typeVar : String)
  /-- A value does not fit the declared type of its target. -/
  | assignability (target : String) (source declared : Ty)
  /-- A function is larger than the limit. -/
  | budget (nodes limit : Int)
  deriving Repr

namespace Finding

def kind : Finding → FindingKind
  | .nonExhaustive _ => .nonExhaustive
  | .ambiguous _ _ _ => .ambiguous
  | .noMatch _ _ _ => .noMatch
  | .constraint _ _ _ => .constraint
  | .underconstrained _ => .underconstrained
  | .assignability _ _ _ => .assignability
  | .budget _ _ => .budget

/-- Types in print, separated by commas. -/
def typeList (ts : List Ty) : Text := Text.joinWith ", " (ts.map Ty.render)

def message : Finding → Text
  | .nonExhaustive residual =>
    "switch is not exhaustive: " ++ residual.render ++ " is not handled"
  | .ambiguous callee args candidates =>
    "call " ++ callee ++ "(" ++ typeList args ++ ") is ambiguous: a union argument spans overloads " ++
      Text.joinWith ", " candidates
  | .noMatch callee args _ => "no overload of " ++ callee ++ " matches (" ++ typeList args ++ ")"
  | .constraint typeVar lower bound =>
    "type " ++ lower.render ++ " inferred for " ++ typeVar ++ " does not satisfy the constraint " ++
      bound.render
  | .underconstrained typeVar =>
    "type parameter " ++ typeVar ++ " cannot be inferred from the arguments; using unknown"
  | .assignability target source declared =>
    "type " ++ source.render ++ " is not assignable to " ++ target ++ " (declared " ++
      declared.render ++ ")"
  | .budget nodes limit =>
    "function has " ++ toString nodes ++ " CFG nodes, exceeding the limit of " ++ toString limit

end Finding

/-- A node of a function's flow graph. -/
structure Location where
  function : String
  node : Int
  deriving DecidableEq, Repr

def Location.render (l : Location) : String := l.function ++ "#" ++ toString l.node

/-- A finding at a location. -/
structure Diagnostic where
  location : Location
  finding : Finding
  deriving Repr

namespace Diagnostic

def severity (d : Diagnostic) : Severity := d.finding.kind.severity

def message (d : Diagnostic) : Text := d.finding.message

def render (d : Diagnostic) : Text :=
  d.location.render ++ ": " ++ d.finding.kind.code ++ ": " ++ d.message

end Diagnostic
end FlowTyping
