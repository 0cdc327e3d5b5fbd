import FlowTyping.Diagnostic.Bag
import FlowTyping.Flow.Pass

/-!
# Reports

A report is the outcome of analysing the bodies of a program, one pass for each. Bodies do not
depend on each other: one that is too large or whose graph is flawed is noted and the others are still
analysed. Only a pass that was called off, or that did not settle, ends the analysis.
-/

namespace FlowTyping

open FlowTyping.Graph (Pass PassError Limits)

/-- A function body to analyse: its graph, or a written graph and what is wrong with it. -/
inductive Body where
  | graph (graph : Graph)
  | flawed (sketch : Sketch) (error : InternalError)
  deriving Repr

namespace Body

/-- The body that a written graph describes. -/
def ofSketch (s : Sketch) : Body :=
  match s.check with
  | .ok g => .graph g
  | .error e => .flawed s e

def name : Body → String
  | .graph g => g.name
  | .flawed s _ => s.name

/-- Number of nodes. -/
def size : Body → Nat
  | .graph g => g.size
  | .flawed s _ => s.nodes.length

/-- Whether the body has a node of this number. -/
def hasNode (b : Body) (id : Int) : Bool := 0 ≤ id && id < b.size

/-- The line that names the body. -/
def header : Body → Text
  | .graph g => g.header
  | .flawed s _ => s.header

/-- The nodes in print: number, kind and line. -/
def lines : Body → List (Int × String × Text)
  | .graph g => g.nodes.toList.zipIdx.map fun (n, id) => (id, n.op.kind, Graph.renderNode id n)
  | .flawed s _ => s.nodes.filterMap fun n => n.map fun n => (n.id, n.draft.kind, n.render)

variable {m : Type → Type} [TypeStore m]

/-- Runs a pass over a body. One that is too large is not looked at further. -/
def analyze (b : Body) (s : Surroundings) (limits : Limits) (calledOff : Bool) :
    m (Except PassError Pass) := do
  match b with
  | .graph g => g.analyze s limits calledOff
  | .flawed sketch e =>
    if limits.exceededBy sketch.nodes.length then
      return .error (.tooLarge sketch.name sketch.entry sketch.nodes.length limits.maxNodes)
    else return .error (.flaw e)

end Body

/-- What became of a body. -/
structure BodyReport where
  body : Body
  outcome : Except PassError Pass

namespace BodyReport

/-- Why the body was skipped. -/
def error? (r : BodyReport) : Option PassError :=
  match r.outcome with
  | .ok _ => none
  | .error e => some e

/-- The state of the pass; a body that was too large has one in which nothing was entered, and a flawed
one has none. -/
def pass? (r : BodyReport) : Option Pass :=
  match r.outcome with
  | .ok p => some p
  | .error (.tooLarge ..) => some { declared := {} }
  | .error _ => none

/-- The findings of the pass, by node. -/
def diagnostics (r : BodyReport) : List Diagnostic :=
  match r.outcome, r.body with
  | .ok p, .graph g => p.diagnostics g
  | .ok _, .flawed _ _ => []
  | .error e, _ => e.diagnostics

/-- Number of nodes that were entered. -/
def reachable (r : BodyReport) : Nat := (r.pass?.map fun p => p.entered.size).getD 0

/-- The environment in which a node was entered. -/
def envAt? (r : BodyReport) (node : Int) : Option Env := do
  let p ← r.pass?
  if node < 0 then none else p.entered[node.toNat]?

end BodyReport

/-- The outcome of an analysis. -/
structure Report where
  runId : String
  path : String
  /-- Whether warnings count as failures. -/
  strict : Bool
  /-- In the order of the program. -/
  bodies : List BodyReport

namespace Report

/-- All findings. -/
def bag (r : Report) : Bag := { items := r.bodies.flatMap BodyReport.diagnostics }

/-- The contracts that were broken. -/
def flaws (r : Report) : List InternalError :=
  r.bodies.filterMap fun b =>
    match b.error? with
    | some (.flaw e) => some e
    | _ => none

/-- Whether the program is rejected: it has an error, a broken contract, or in strict mode a
warning. -/
def failed (r : Report) : Bool := r.bag.failed r.strict || !r.flaws.isEmpty

/-- The report on the first body of a name. -/
def body? (r : Report) (name : String) : Option BodyReport := r.bodies.find? (·.body.name == name)

/-- The type of a variable on entry to a node. -/
def typeAt? (r : Report) (function : String) (node : Int) (var : String) : Option Ty := do
  let b ← r.body? function
  (← b.envAt? node).find? var

variable {m : Type → Type} [TypeStore m]

/-- Analyses bodies one after the other; a pass that was called off or did not settle ends it. -/
def analyzeBodies (s : Surroundings) (limits : Limits) (calledOff : Bool) :
    List Body → m (Except PassError (List BodyReport))
  | [] => pure (.ok [])
  | b :: rest => do
    match ← b.analyze s limits calledOff with
    | .error .calledOff => return .error .calledOff
    | .error (.unsettled function) => return .error (.unsettled function)
    | outcome => return (← analyzeBodies s limits calledOff rest).map (⟨b, outcome⟩ :: ·)

/-- Analyses the bodies of a program. -/
def analyze (runId path : String) (strict : Bool) (s : Surroundings) (limits : Limits)
    (calledOff : Bool) (bodies : List Body) : m (Except PassError Report) := do
  return (← analyzeBodies s limits calledOff bodies).map fun bodies =>
    { runId, path, strict, bodies }

end Report
end FlowTyping
