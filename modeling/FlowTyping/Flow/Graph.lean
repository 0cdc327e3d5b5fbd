import FlowTyping.Flow.Code
import FlowTyping.Flow.Env

/-!
# Flow graphs

A flow graph has numbered nodes that do one thing each and are linked by successor slots. A `Sketch`
is a graph as someone wrote it down, with whatever is wrong with it; `Sketch.check` turns it into a
`Graph`, in which every slot is there and leads to a node, or says what is wrong.
-/

namespace FlowTyping

/-- What a node does. -/
inductive Op where
  | entry
  | assign (var : String) (value : Value) (declare : Bool) (ascribed : Option Ty)
  /-- Two ways on; a missing guard says nothing about types. -/
  | branch (guard : Option Guard)
  | merge
  | ret (value : Option Value)
  | throw (value : Option Value)
  | call (site : CallSite)
  | switch (site : SwitchSite)
  | exit
  /-- A kind of node that means nothing; no way leads on from it. -/
  | other (kind : Int)
  deriving Repr

namespace Op

/-- The word for what a node does. -/
def kind : Op → String
  | .entry => "entry"
  | .assign _ _ _ _ => "assign"
  | .branch _ => "branch"
  | .merge => "merge"
  | .ret _ => "return"
  | .throw _ => "throw"
  | .call _ => "call"
  | .switch _ => "switch"
  | .exit => "exit"
  | .other kind => "NodeKind(" ++ toString kind ++ ")"

/-- Number of successor slots. -/
def slots : Op → Nat
  | .branch _ => 2
  | .switch site => site.cases.length + 1
  | .ret _ | .throw _ | .exit => 0
  | _ => 1

def isEntry : Op → Bool
  | .entry => true
  | _ => false

/-- An assignment as it is written. -/
def assignText (name : String) (value : Text) (declare : Bool) (ascribed : Option Ty) : Text :=
  (if declare then "let " else "") ++ name ++
    (match ascribed with
     | some t => ": " ++ t.render
     | none => "") ++ " = " ++ value

/-- What a node does, in detail. -/
def detail : Op → Text
  | .assign name value declare ascribed => assignText name value.render declare ascribed
  | .branch (some g) => g.render
  | .branch none => "?"
  | .call site => site.render
  | .switch site => site.render
  | .ret (some value) => value.render
  | .throw (some value) => value.render
  | _ => ""

end Op

/-- A node with its successors. -/
structure Node where
  op : Op
  succs : List Nat
  deriving Repr

/-- The flow graph of one function body. -/
structure Graph where
  name : String
  nodes : Array Node
  entry : Nat
  /-- The node at which the body ends. -/
  exit : Int
  params : List (Param Ty)
  /-- The declared result type; `none` when results are not checked. -/
  returns : Option Ty
  /-- The declared types of parameters and annotated variables. -/
  declared : Env
  deriving Repr

namespace Graph

/-- The successors of a node, one for each slot. -/
def succs (g : Graph) (id : Nat) : List Nat :=
  match g.nodes[id]? with
  | some n => n.succs
  | none => []

/-- Number of nodes. -/
def size (g : Graph) : Nat := g.nodes.size

/-- The nodes with an edge to each node, in order and without repetitions. -/
def predecessors (g : Graph) (id : Nat) : List Nat :=
  (List.range g.size).filter fun p => (g.succs p).contains id

/-- A node on a line of its own: number, kind, what it does in detail, and successors. -/
def nodeLine (id kind : String) (detail : Text) (succs : List String) : Text :=
  id ++ " " ++ kind ++ (if detail.isEmpty then ("" : Text) else " " ++ detail) ++
    (if succs.isEmpty then "" else " -> " ++ ", ".intercalate succs)

/-- The line of a node. -/
def renderNode (id : Nat) (n : Node) : Text :=
  nodeLine (toString id) n.op.kind n.op.detail (n.succs.map toString)

/-- A function's name, parameters and declared result. -/
def headerOf (name : String) (params : List (Param Ty)) (returns : Option Ty) : Text :=
  name ++ "(" ++ Ty.paramList params ++ ")" ++
    match returns with
    | some t => ": " ++ t.render
    | none => ""

/-- The line that names a graph. -/
def header (g : Graph) : Text := headerOf g.name g.params g.returns

/-- The lines of a graph: its header, then its nodes. -/
def render (g : Graph) : List Text :=
  g.header :: g.nodes.toList.zipIdx.map fun (n, id) => "  " ++ renderNode id n

/-- What every graph has that `Sketch.check` lets through: the entry is the only entry node, and
each node has the slots that it needs, all leading to nodes. -/
structure Valid (g : Graph) : Prop where
  entry_isEntry : ∀ n, g.nodes[g.entry]? = some n → n.op.isEntry = true
  entry_lt : g.entry < g.size
  slots_eq : ∀ (id : Nat) (n : Node), g.nodes[id]? = some n → n.succs.length = n.op.slots
  succ_lt : ∀ (id : Nat) (n : Node), g.nodes[id]? = some n → ∀ s ∈ n.succs, s < g.size
  entry_unique : ∀ (id : Nat) (n : Node), g.nodes[id]? = some n → n.op.isEntry = true → id = g.entry

end Graph

/-- What a written node says that it does. -/
inductive Draft where
  | op (op : Op)
  /-- An assignment without a variable or a value, as it is written. -/
  | noTarget (text : Text)
  /-- A call of nothing. -/
  | noCall
  /-- A switch over nothing. -/
  | noSubject
  deriving Repr

namespace Draft

/-- What is written in the place of a missing value. -/
def noValue : String := "%!s(<nil>)"

/-- An assignment, if it has a variable and a value. -/
def assign (name : String) (value : Option Value) (declare : Bool) (ascribed : Option Ty) : Draft :=
  match value with
  | some value =>
    if name.isEmpty then .noTarget (Op.assignText name value.render declare ascribed)
    else .op (.assign name value declare ascribed)
  | none => .noTarget (Op.assignText name noValue declare ascribed)

def kind : Draft → String
  | .op o => o.kind
  | .noTarget _ => "assign"
  | .noCall => "call"
  | .noSubject => "switch"

/-- What the node does, in detail. -/
def detail : Draft → Text
  | .op o => o.detail
  | .noTarget text => text
  | _ => ""

/-- Number of successor slots. -/
def slots : Draft → Nat
  | .op o => o.slots
  | _ => 1

end Draft

/-- A written node; it carries the number that its writer gave it. -/
structure SketchNode where
  id : Int
  draft : Draft
  succs : List Int
  deriving Repr

/-- The line of a written node. -/
def SketchNode.render (n : SketchNode) : Text :=
  Graph.nodeLine (toString n.id) n.draft.kind n.draft.detail (n.succs.map toString)

/-- A written graph. -/
structure Sketch where
  name : String
  /-- The nodes in order; some may be missing. -/
  nodes : List (Option SketchNode)
  entry : Int
  exit : Int
  params : List (Param Ty)
  returns : Option Ty
  declared : Env
  deriving Repr

/-- What is wrong with a written graph. -/
inductive GraphFlaw where
  | noEntry
  | misnumbered (id : Nat)
  | noSubject
  | slotCount (kind : String) (have_ want : Nat)
  | dangling (kind : String) (succ : Int)
  | noCall
  | noTarget
  | secondEntry
  deriving DecidableEq, Repr

def GraphFlaw.message : GraphFlaw → String
  | .noEntry => "graph has no entry node"
  | .misnumbered id => "node " ++ toString id ++ " is missing or misnumbered"
  | .noSubject => "switch node without a subject"
  | .slotCount kind have_ want =>
    kind ++ " node has " ++ toString have_ ++ " successors, want " ++ toString want
  | .dangling kind succ => kind ++ " node has dangling successor " ++ toString succ
  | .noCall => "call node without a call site"
  | .noTarget => "assign node without a target or value"
  | .secondEntry => "second entry node"

/-- A contract that the analysis relies on and that was broken. -/
structure InternalError where
  function : String
  node : Int
  cause : String
  deriving DecidableEq, Repr

def InternalError.message (e : InternalError) : String :=
  "internal error in " ++ e.function ++ " at node " ++ toString e.node ++ ": " ++ e.cause

namespace Sketch

/-- The line that names a written graph. -/
def header (s : Sketch) : Text := Graph.headerOf s.name s.params s.returns

/-- Whether a number is that of a node. -/
def hasNode (s : Sketch) (id : Int) : Bool :=
  0 ≤ id && ((s.nodes[id.toNat]?).bind fun n => n).isSome

/-- The node of a number. -/
def node? (s : Sketch) (id : Int) : Option SketchNode :=
  if id < 0 then none else (s.nodes[id.toNat]?).bind fun n => n

/-- Checks the node at a position. -/
def checkNode (s : Sketch) (id : Nat) (written : Option SketchNode) : Except GraphFlaw Node := do
  match written with
  | none => throw (.misnumbered id)
  | some n =>
    if n.id ≠ id then throw (.misnumbered id)
    match n.draft with
    | .noSubject => throw .noSubject
    | _ => pure ()
    if n.succs.length ≠ n.draft.slots then
      throw (.slotCount n.draft.kind n.succs.length n.draft.slots)
    match n.succs.find? (!s.hasNode ·) with
    | some succ => throw (.dangling n.draft.kind succ)
    | none => pure ()
    match n.draft with
    | .noCall => throw .noCall
    | .noTarget _ => throw .noTarget
    | .noSubject => throw .noSubject
    | .op op =>
      if op.isEntry && s.entry ≠ id then throw .secondEntry
      return { op, succs := n.succs.map Int.toNat }

/-- Checks the nodes from a position on. -/
def checkNodes (s : Sketch) : (id : Nat) → List (Option SketchNode) →
    Except (Int × GraphFlaw) (List Node)
  | _, [] => .ok []
  | id, n :: ns =>
    match s.checkNode id n with
    | .error flaw => .error (id, flaw)
    | .ok node => (checkNodes s (id + 1) ns).map (node :: ·)

/-- Whether the node at the entry is an entry node. -/
def hasEntry (s : Sketch) : Bool :=
  match s.node? s.entry with
  | some { draft := .op .entry, .. } => true
  | _ => false

/-- The graph of a sketch, or the first thing that is wrong with it. -/
def check (s : Sketch) : Except InternalError Graph :=
  let wrong (id : Int) (flaw : GraphFlaw) : InternalError :=
    { function := s.name, node := id, cause := flaw.message }
  if !s.hasEntry then .error (wrong s.entry .noEntry)
  else
    match s.checkNodes 0 s.nodes with
    | .error (id, flaw) => .error (wrong id flaw)
    | .ok nodes =>
      .ok
        { name := s.name
          nodes := nodes.toArray
          entry := s.entry.toNat
          exit := s.exit
          params := s.params
          returns := s.returns
          declared := s.declared }

end Sketch
end FlowTyping
