import FlowTyping.Diagnostic.Basic
import FlowTyping.Guard.Narrow

/-!
# Exhaustive switches

A switch over a variable, or over one of its properties, takes the case values one after the other:
each case gets the part of the subject that it matches, and the rest goes on to the next. What is left
after the last case is the residual, which the default clause sees.
-/

namespace FlowTyping

/-- A subject taken apart by the cases of a switch. -/
structure CaseSplit where
  /-- The part of the subject that each case gets; `never` for a case that cannot match. -/
  cases : List Ty
  /-- What no case gets. -/
  residual : Ty
  /-- Whether some case could not narrow the subject. -/
  degraded : Bool
  deriving Repr

/-- Whether nothing is left for a default clause. -/
def CaseSplit.exhaustive (c : CaseSplit) : Bool := c.residual.isNever

namespace Guard

variable {m : Type → Type} [TypeStore m]

/-- The test that a case makes of the subject. -/
def ofCase (prop : Option Text) (value : Ty) : Guard :=
  match prop with
  | some prop => .discriminant "" prop value
  | none => .equality .strictEq { var := "" } (.type value)

/-- Takes a subject apart by case values, in order. -/
def splitCases (preds : Predicates) (prop : Option Text) : Ty → List Ty → m CaseSplit
  | subject, [] => pure { cases := [], residual := subject, degraded := false }
  | subject, value :: values => do
    let s ← (ofCase prop value).narrow preds none subject
    let rest ← splitCases preds prop s.no values
    return { rest with cases := s.yes :: rest.cases, degraded := s.degraded || rest.degraded }

/-- The finding of a switch without default clause: what it leaves, unless some case could not
narrow. -/
def missingCases (c : CaseSplit) : Option Finding :=
  if c.exhaustive || c.degraded then none else some (.nonExhaustive c.residual)

end Guard
end FlowTyping
