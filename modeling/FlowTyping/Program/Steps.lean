import FlowTyping.Program.Error
import FlowTyping.Program.Source
import FlowTyping.Text.Blank

/-!
# Statements of a program file

The keyword of a statement decides its kind; a call may come with the variable that takes its result.
Sources are read in the order of the program: a condition before its blocks, and all values of a switch
before its bodies. The first error ends the reading.
-/

namespace FlowTyping

/-- What a statement is. -/
inductive Keyword where
  | cond | loop | switch | call | declare | assign | ret | throw | leave | again
  deriving DecidableEq, Repr

/-- The keyword that is written like this. -/
def Keyword.ofText? : String → Option Keyword
  | "if" => some .cond
  | "while" => some .loop
  | "switch" => some .switch
  | "call" => some .call
  | "let" => some .declare
  | "assign" => some .assign
  | "return" => some .ret
  | "throw" => some .throw
  | "break" => some .leave
  | "continue" => some .again
  | _ => none

/-- The keyword of a statement: the only one that is there, or a call with a variable. -/
def Step.keyword (s : Step) : Except LoadCause Keyword :=
  let found := keywords.filter s.has
  match found with
  | [] => .error .noKeyword
  | [word] =>
    match Keyword.ofText? word with
    | some k => .ok k
    | none => .error .noKeyword
  | _ =>
    let sorted := found.mergeSort fun a b => decide (a ≤ b)
    if sorted = ["assign", "call"] || sorted = ["call", "let"] then .ok .call
    else .error (.mixedKeywords sorted)

/-- Computations that may end in an error of loading. -/
abbrev Load (m : Type → Type) := ExceptT LoadError m

namespace Load

variable {m : Type → Type} [TypeStore m]

/-- Ends with a cause. -/
def fail {α : Type} (cause : LoadCause) : Load m α := throw { cause }

/-- Puts errors into a place. -/
def within {α : Type} (p : Place) (x : Load m α) : Load m α := ExceptT.adapt (LoadError.within p) x

/-- Reads a source. -/
def source {α : Type} (read : Text.Bytes → m (Except Notation.SourceError α)) (text : Text) :
    Load m α := do
  match ← (read text.toList : m _) with
  | .ok a => return a
  | .error e => fail (.source e)

end Load

/-- A text that is not empty. -/
def Text.nonEmpty? (t : Text) : Option Text := if t.isEmpty then none else some t

/-- A name that is not empty. -/
def nonEmptyName? (s : String) : Option String := if s.isEmpty then none else some s

namespace Step

open Load (fail within)

variable {m : Type → Type} [TypeStore m]

/-- The value of a statement, if it has one. -/
def value (r : Notation.Reader) (s : Step) : Load m (Option Value) :=
  if s.has "value" then some <$> Load.source r.readValue (s.word "value") else return none

/-- The variable and the property that a switch is over. -/
def subject (s : Step) : String × Option Text :=
  let text := (s.word "switch").trim
  match text.cut "." with
  | some (var, prop) => (var.toString, prop.nonEmpty?)
  | none => (text.toString, none)

/-- Reads the values of a clause. -/
def caseValues (r : Notation.Reader) (number : Nat) : List Text → Load m (List Ty)
  | [] => return []
  | source :: rest => do
    let t ← within (.clause number) (Load.source r.readType source)
    return t :: (← caseValues r number rest)

/-- Reads the values of all clauses, the first of which has this number. -/
def allValues (r : Notation.Reader) :
    (number : Nat) → List (List Text × List Step) → Load m (List (List Ty))
  | _, [] => return []
  | number, (values, _) :: rest => do
    let ts ← caseValues r number values
    return ts :: (← allValues r (number + 1) rest)

/-- A statement without blocks. -/
def simple (r : Notation.Reader) (typeParams : List (String × Ty)) (s : Step) :
    Keyword → Load m Stmt
  | .declare => do
    let ascribed ← match (s.word "type").nonEmpty? with
      | some source => some <$> Load.source ({ r with vars := typeParams } : Notation.Reader).readType source
      | none => pure none
    return .declare (s.name "let") ascribed (← value r s)
  | .assign => do
    match ← value r s with
    | some v => return .assign (s.name "assign") (some v)
    | none => fail (.noValue (s.name "assign"))
  | .call => do
    let site ← Load.source r.readCall (s.word "call")
    if s.has "let" then
      return .call { site with result := nonEmptyName? (s.name "let"), declare := true }
    else return .call { site with result := nonEmptyName? (s.name "assign") }
  | .ret => do
    match (s.word "return").nonEmpty? with
    | some source => return .ret (some (← Load.source r.readValue source))
    | none => return .ret none
  | .throw => do return .throw (some (← Load.source r.readValue (s.word "throw")))
  | .again => return .again
  | _ => return .leave

mutual
/-- The statement that a written one stands for. -/
def resolve (r : Notation.Reader) (typeParams : List (String × Ty)) : Step → Load m Stmt
  | .mk line keys words yes no body default clauses => do
    let s : Step := .mk line keys words yes no body default clauses
    match s.keyword with
    | .error cause => within (.line line) (fail cause)
    | .ok .cond =>
      let c ← within (.line line) (Load.source r.readCond (s.word "if"))
      let yes ← resolveAll r typeParams yes
      return .cond (some c) yes (← resolveAll r typeParams no)
    | .ok .loop =>
      let c ← within (.line line) (Load.source r.readCond (s.word "while"))
      return .loop (some c) (← resolveAll r typeParams body)
    | .ok .switch =>
      let (var, prop) := s.subject
      let values ← within (.line line) (allValues r 1 clauses)
      let bodies ← resolveClauses r typeParams clauses
      let otherwise ← resolveAll r typeParams default
      return .switch var prop (values.zip bodies) (if s.has "default" then some otherwise else none)
    | .ok k => within (.line line) (simple r typeParams s k)

/-- The statements that written ones stand for. -/
def resolveAll (r : Notation.Reader) (typeParams : List (String × Ty)) :
    List Step → Load m (List Stmt)
  | [] => return []
  | s :: rest => do
    let s ← resolve r typeParams s
    return s :: (← resolveAll r typeParams rest)

/-- The bodies of clauses. -/
def resolveClauses (r : Notation.Reader) (typeParams : List (String × Ty)) :
    List (List Text × List Step) → Load m (List (List Stmt))
  | [] => return []
  | (_, body) :: rest => do
    let body ← resolveAll r typeParams body
    return body :: (← resolveClauses r typeParams rest)
end

end Step
end FlowTyping
