import FlowTyping.Flow.Graph

/-!
# Building flow graphs

Statements are laid out one after the other at a current position, which is the set of successor
slots that are still open. Where several slots are open, a merge node joins them first. Conditions
become chains of branch nodes with one set of open slots for each outcome.

* `Stmt.lay` and `layAll` lay out statements; `Builder.finish` closes the graph.
* A `leave` outside of loops and switches, an `again` outside of loops and a conditional without a
  condition are errors, of which the first is kept.
-/

namespace FlowTyping

/-- A successor slot that is not linked yet. -/
structure Exit where
  node : Nat
  slot : Nat
  deriving DecidableEq, Repr

/-- A loop or switch around the current position. -/
structure Scope where
  /-- The slots that leave it. -/
  breaks : List Exit := []
  /-- The head of a loop; `none` for a switch. -/
  header : Option Nat
  deriving Repr

/-- What cannot be laid out. -/
inductive LayoutError where
  | leaveOutside
  | againOutside
  | noCondition
  deriving DecidableEq, Repr

def LayoutError.message : LayoutError → String
  | .leaveOutside => "break outside of a loop or switch"
  | .againOutside => "continue outside of a loop"
  | .noCondition => "unsupported condition <nil>"

/-- Why a body has no graph. -/
inductive BuildError where
  | layout (function : String) (error : LayoutError)
  | flaw (error : InternalError)
  deriving DecidableEq, Repr

def BuildError.message : BuildError → String
  | .layout function error => function ++ ": " ++ error.message
  | .flaw error => error.message

/-- A node under construction. -/
structure OpenNode where
  draft : Draft
  /-- The nodes that each slot was linked to, the last one first. A slot leads to the last one. -/
  links : List (List Nat)
  deriving Repr

/-- A graph under construction. -/
structure Builder where
  name : String
  params : List (Param Ty)
  returns : Option Ty
  declared : Env
  nodes : Array OpenNode := #[]
  /-- The open slots at the current position; none if it cannot be reached. -/
  pending : List Exit := []
  /-- Enclosing loops and switches, the innermost first. -/
  scopes : List Scope := []
  error : Option LayoutError := none
  deriving Repr

namespace Builder

/-- Whether the current position can be reached. -/
def reachable (b : Builder) : Bool := !b.pending.isEmpty

/-- Links a slot to a node. -/
def link (b : Builder) (target : Nat) (e : Exit) : Builder :=
  { b with
    nodes := b.nodes.modify e.node fun n => { n with links := n.links.modify e.slot (target :: ·) } }

/-- Links all open slots to a node. -/
def linkPending (b : Builder) (target : Nat) : Builder :=
  { b.pending.foldl (link · target) b with pending := [] }

/-- The slots of a node. -/
def exits (node slots : Nat) : List Exit := (List.range slots).map fun slot => { node, slot }

/-- Adds a node at the current position and links the open slots to it; its own slots are open
then. -/
def place (b : Builder) (draft : Draft) : Builder :=
  let id := b.nodes.size
  let slots := draft.slots
  let b := b.linkPending id
  { b with
    nodes := b.nodes.push { draft, links := List.replicate slots [] }
    pending := exits id slots }

/-- Adds a node; a merge node first if several slots are open. -/
def emit (b : Builder) (draft : Draft) : Builder :=
  match b.pending with
  | _ :: _ :: _ => (b.place (.op .merge)).place draft
  | _ => b.place draft

/-- The number of the node that was added last. -/
def last (b : Builder) : Nat := b.nodes.size - 1

/-- Notes an error, unless there is one. -/
def fail (b : Builder) (e : LayoutError) : Builder :=
  match b.error with
  | some _ => b
  | none => { b with error := some e }

/-- Starts the graph of a function. -/
def start (name : String) (params : List (Param Ty)) (returns : Option Ty) : Builder :=
  let declared := Env.ofList (params.map fun p => (p.name, p.type))
  ({ name, params, returns, declared } : Builder).place (.op .entry)

/-- Adds slots to those that leave the innermost loop or switch. -/
def addBreaks (b : Builder) (exits : List Exit) : Builder :=
  match b.scopes with
  | [] => b
  | s :: rest => { b with scopes := { s with breaks := s.breaks ++ exits } :: rest }

/-- Enters a loop or switch. -/
def enter (b : Builder) (header : Option Nat) : Builder :=
  { b with scopes := { header } :: b.scopes }

/-- Leaves a loop or switch; also gives the slots that leave it. -/
def leaveScope (b : Builder) : List Exit × Builder :=
  match b.scopes with
  | [] => ([], b)
  | s :: rest => (s.breaks, { b with scopes := rest })

/-- The head of the innermost loop. -/
def innermostHeader (b : Builder) : Option Nat := b.scopes.findSome? (·.header)

end Builder

namespace Cond

/-- Lays out a condition: the open slots where it holds, and those where it does not. -/
def lower : Cond → Builder → (List Exit × List Exit) × Builder
  | .test g, b =>
    let b := b.emit (.op (.branch g))
    (([{ node := b.last, slot := 0 }], [{ node := b.last, slot := 1 }]), { b with pending := [] })
  | .not c, b =>
    let ((yes, no), b) := lower c b
    ((no, yes), b)
  | .and left right, b =>
    let ((leftYes, leftNo), b) := lower left b
    let ((yes, no), b) := lower right { b with pending := leftYes }
    ((yes, leftNo ++ no), b)
  | .or left right, b =>
    let ((leftYes, leftNo), b) := lower left b
    let ((yes, no), b) := lower right { b with pending := leftNo }
    ((leftYes ++ yes, no), b)

end Cond

namespace Builder

/-- Lays out the condition of a conditional. Without one the current position goes on. -/
def lowerCond (b : Builder) : Option Cond → (List Exit × List Exit) × Builder
  | some c => c.lower b
  | none => ((b.pending, []), b.fail .noCondition)

/-- The slots of a switch node that lead to a clause: one for each of its values. -/
def clauseExits (node first count : Nat) : List Exit :=
  (List.range count).map fun i => { node, slot := first + i }

end Builder

mutual
/-- Lays out a statement. -/
def Stmt.lay : Stmt → Builder → Builder
  | .declare name ascribed value, b =>
    let value := value.getD (.const .undefined)
    let b := b.emit (.assign name (some value) true ascribed)
    match ascribed with
    | some t => { b with declared := b.declared.bind name t }
    | none => b
  | .assign name value, b => b.emit (.assign name value false none)
  | .call site, b => b.emit (.op (.call site))
  | .ret value, b => b.emit (.op (.ret value))
  | .throw value, b => b.emit (.op (.throw value))
  | .cond c yes no, b =>
    let ((held, failed), b) := b.lowerCond c
    let b := layAll yes { b with pending := held }
    let after := b.pending
    let b := layAll no { b with pending := failed }
    { b with pending := after ++ b.pending }
  | .loop c body, b =>
    -- the head is a merge node whatever is open
    let b := b.place (.op .merge)
    let header := b.last
    let (done, b) :=
      match c with
      | none => (([] : List Exit), b)
      | some c =>
        let ((held, failed), b) := c.lower b
        (failed, { b with pending := held })
    let b := (layAll body (b.enter (some header))).linkPending header
    let (breaks, b) := b.leaveScope
    { b with pending := done ++ breaks }
  | .switch v prop clauses default, b =>
    let site := SwitchSite.ofClauses v prop clauses default
    let b := b.emit (.op (.switch site))
    let node := b.last
    let b := layClauses node 0 clauses ({ b with pending := [] }.enter none)
    let b := { b with pending := [{ node, slot := site.cases.length }] }
    let b :=
      match default with
      | none => b
      | some body => layAll body b
    let (breaks, b) := b.leaveScope
    { b with pending := b.pending ++ breaks }
  | .leave, b =>
    if b.scopes.isEmpty then b.fail .leaveOutside
    else { b.addBreaks b.pending with pending := [] }
  | .again, b =>
    match b.innermostHeader with
    | none => b.fail .againOutside
    | some header => b.linkPending header

/-- Lays out statements one after the other. -/
def layAll : List Stmt → Builder → Builder
  | [], b => b
  | s :: rest, b => layAll rest (s.lay b)

/-- Lays out the clauses of a switch node from a slot on; falling off the end of one leaves the
switch. -/
def layClauses (node first : Nat) : List (List Ty × List Stmt) → Builder → Builder
  | [], b => b
  | (values, body) :: rest, b =>
    let b := layAll body { b with pending := Builder.clauseExits node first values.length }
    layClauses node (first + values.length) rest (b.addBreaks b.pending)
end

/-- The node as it is written down. -/
def OpenNode.sketch (n : OpenNode) (id : Nat) : SketchNode :=
  { id
    draft := n.draft
    succs := n.links.map fun
      | target :: _ => (target : Int)
      | [] => -1 }

namespace Builder

/-- The graph as it is written down. -/
def sketch (b : Builder) : Sketch :=
  { name := b.name
    nodes := b.nodes.toList.zipIdx.map fun (n, id) => some (n.sketch id)
    entry := 0
    exit := b.last
    params := b.params
    returns := b.returns
    declared := b.declared }

/-- Closes the graph: what falls off the end goes to the exit node. -/
def finish (b : Builder) : Except BuildError Graph :=
  match b.error with
  | some e => .error (.layout b.name e)
  | none =>
    match (b.place (.op .exit)).sketch.check with
    | .ok g => .ok g
    | .error e => .error (.flaw e)

end Builder

/-- The graph of a function body. -/
def Graph.ofBody (name : String) (params : List (Param Ty)) (returns : Option Ty)
    (body : List Stmt) : Except BuildError Graph :=
  (layAll body (.start name params returns)).finish

end FlowTyping
