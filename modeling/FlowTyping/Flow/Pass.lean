import FlowTyping.Flow.Order
import FlowTyping.Flow.Transfer

/-!
# Passes

A pass carries environments through a flow graph until nothing changes. Nodes to be looked at again
wait in a set; the one that is earliest in reverse postorder comes next. A node is entered with the
join of the environments on its live incoming edges. At a loop header an environment may only grow, and
after a number of visits a variable that still changes is widened to its declared type.

* `step` looks at one waiting node, `run` at all of them.
* `analyze` refuses a graph that is too large, and a pass that was called off.
-/

namespace FlowTyping.Graph

open TypeStore

/-- The state of a pass. -/
structure Pass where
  /-- The environment in which each reached node was entered last. -/
  entered : Std.HashMap Nat Env := ∅
  /-- How often each node was entered with a new environment. -/
  visits : Std.HashMap Nat Nat := ∅
  /-- The environment on each live edge, by node and slot. -/
  edges : Std.HashMap (Nat × Nat) Env := ∅
  declared : Env
  /-- The nodes to be looked at. -/
  waiting : Std.HashSet Nat := ∅
  calls : Std.HashMap Nat CallResult := ∅
  switches : Std.HashMap Nat CaseSplit := ∅
  /-- The nodes whose guard or cases could not narrow at some time. -/
  degraded : Std.HashSet Nat := ∅
  findings : Std.HashMap Nat (List Finding) := ∅

/-- What a pass needs to know of its graph. -/
structure Plan where
  graph : Graph
  surroundings : Surroundings
  /-- Reachable nodes in reverse postorder. -/
  order : List Nat
  headers : List Nat
  /-- Number of visits after which a loop header widens. -/
  maxLoopVisits : Nat

/-- The plan of a pass. -/
def plan (g : Graph) (s : Surroundings) (maxLoopVisits : Nat) : Plan :=
  { graph := g
    surroundings := s
    order := g.reversePostorder
    headers := g.loopHeaders
    maxLoopVisits }

namespace Pass

variable {m : Type → Type} [TypeStore m]

/-- A pass that has only the entry to look at. -/
def start (g : Graph) : Pass :=
  { declared := g.declared, waiting := (∅ : Std.HashSet Nat).insert g.entry }

/-- The waiting node that is earliest in reverse postorder. -/
def next? (p : Pass) (plan : Plan) : Option Nat := plan.order.find? p.waiting.contains

/-- The environment in which a function is entered: an argument that may be left out may be
`undefined`. -/
def entryEnv : List (Param Ty) → Env → m Env
  | [], env => pure env
  | p :: ps, env => do
    let t ← if p.optional && !p.rest then union [p.type, .undefined] else pure p.type
    entryEnv ps (env.bind p.name t)

/-- The environments on the live edges into a node. -/
def liveInto (p : Pass) (g : Graph) (id : Nat) : List Env :=
  (g.predecessors id).flatMap fun pred =>
    (g.succs pred).zipIdx.filterMap fun (succ, slot) =>
      if succ = id then p.edges[(pred, slot)]? else none

/-- The environment in which a node would be entered; `none` if no edge into it is live. -/
def incoming (p : Pass) (g : Graph) (id : Nat) : m (Option Env) := do
  if id = g.entry then return some (← entryEnv g.params {})
  else
    match p.liveInto g id with
    | [] => return none
    | envs => return some (← Env.joinAll envs (unbound p.declared))

/-- Widens the bindings of a loop header: one that the previous environment covers keeps its previous
type, and past the limit one that would still change takes its declared type. -/
def widenBindings (declared prev : Env) (limit : Bool) :
    List (String × Ty) → m (List (String × Ty))
  | [] => pure []
  | (name, t) :: rest => do
    let covered ← match prev.find? name with
      | some old => do if ← subtype t old then pure (some old) else pure none
      | none => pure none
    let t := match covered with
      | some old => old
      | none => if limit then (declared.find? name).getD .unknown else t
    return (name, t) :: (← widenBindings declared prev limit rest)

/-- Notes the environment that leaves a slot; the node behind it waits if it is a new one. -/
def noteEdge (p : Pass) (id slot succ : Nat) (out : Option Env) : Pass :=
  match out, p.edges[(id, slot)]? with
  | none, none => p
  | none, some _ =>
    { p with edges := p.edges.erase (id, slot), waiting := p.waiting.insert succ }
  | some env, some old =>
    if old.same env then p
    else { p with edges := p.edges.insert (id, slot) env, waiting := p.waiting.insert succ }
  | some env, none =>
    { p with edges := p.edges.insert (id, slot) env, waiting := p.waiting.insert succ }

/-- Notes the environments that leave the slots of a node. -/
def noteEdges (p : Pass) (id : Nat) : (slot : Nat) → List Nat → List (Option Env) → Pass
  | slot, succ :: succs, outs =>
    noteEdges (p.noteEdge id slot succ (outs.headD none)) id (slot + 1) succs outs.tail
  | _, [], _ => p

/-- Notes what came of entering a node. -/
def record (p : Pass) (id : Nat) (succs : List Nat) (env : Env) (o : Outcome) : Pass :=
  let p :=
    { p with
      entered := p.entered.insert id env
      visits := p.visits.insert id (p.visits.getD id 0 + 1)
      declared := o.declared
      findings := p.findings.insert id o.findings
      calls := match o.call with
        | some c => p.calls.insert id c
        | none => p.calls
      switches := match o.cases with
        | some c => p.switches.insert id c
        | none => p.switches
      degraded := if o.degraded then p.degraded.insert id else p.degraded }
  p.noteEdges id 0 succs o.outs

/-- Looks at a node: enters it, unless it was entered in the same environment before or no edge into
it is live. -/
def visit (p : Pass) (plan : Plan) (id : Nat) : m Pass := do
  match plan.graph.nodes[id]? with
  | none => return p
  | some n =>
    match ← p.incoming plan.graph id with
    | none => return p
    | some env =>
      let prev := p.entered[id]?
      let env ← match prev with
        | some old =>
          if plan.headers.contains id then
            let limit := plan.maxLoopVisits ≤ p.visits.getD id 0
            pure { bindings := ← widenBindings p.declared old limit env.bindings }
          else pure env
        | none => pure env
      if (prev.map fun old => old.same env).getD false then return p
      else
        let o ← transfer plan.surroundings plan.graph.returns p.declared n.op env
        return p.record id n.succs env o

/-- Looks at the next waiting node; `none` when none waits. -/
def step (p : Pass) (plan : Plan) : m (Option Pass) := do
  match p.next? plan with
  | none => return none
  | some id => return some (← visit { p with waiting := p.waiting.erase id } plan id)

/-- Looks at waiting nodes until none waits; `none` when some still wait after `fuel` steps. -/
def run (plan : Plan) : (fuel : Nat) → Pass → m (Option Pass)
  | 0, p => pure (if (p.next? plan).isNone then some p else none)
  | n + 1, p => do
    match ← p.step plan with
    | none => return some p
    | some p => run plan n p

end Pass

/-- Bounds on a pass. -/
structure Limits where
  /-- Greatest number of nodes of a graph; `0` for no limit. -/
  maxNodes : Nat := 0
  maxLoopVisits : Nat := 2
  deriving Repr

/-- The number of visits after which loop headers widen unless told otherwise. -/
def defaultLoopVisits : Nat := 2

/-- The limits of given numbers; none or a negative one stands for the default. -/
def Limits.ofInts (maxNodes maxLoopVisits : Int) : Limits :=
  { maxNodes := maxNodes.toNat
    maxLoopVisits := if maxLoopVisits ≤ 0 then defaultLoopVisits else maxLoopVisits.toNat }

/-- Why a pass has no result. -/
inductive PassError where
  /-- The graph has more nodes than the limit. -/
  | tooLarge (function : String) (entry nodes limit : Int)
  | flaw (error : InternalError)
  | calledOff
  /-- The environments kept changing. -/
  | unsettled (function : String)
  deriving Repr

namespace PassError

def message : PassError → String
  | .tooLarge function _ _ _ => function ++ ": analysis budget exceeded"
  | .flaw error => error.message
  | .calledOff => "context canceled"
  | .unsettled function => function ++ ": analysis did not settle"

/-- The finding that goes with a graph that is too large. -/
def diagnostics : PassError → List Diagnostic
  | .tooLarge function entry nodes limit =>
    [{ location := { function, node := entry }, finding := .budget nodes limit }]
  | _ => []

end PassError

-- a power of whole numbers is the core one, whatever algebra is in scope
attribute [local instance (1100)] instPowNat

/-- Number of steps that a pass is given: more than can be waited for, so that in practice a pass whose
environments keep changing does not come back. -/
def stepAllowance : Nat := 2 ^ (62 : Nat)

/-- Whether a graph has more nodes than a limit allows. -/
def Limits.exceededBy (limits : Limits) (nodes : Nat) : Bool :=
  0 < limits.maxNodes && limits.maxNodes < nodes

variable {m : Type → Type} [TypeStore m]

/-- Runs a pass over a graph. -/
def analyze (g : Graph) (s : Surroundings) (limits : Limits) (calledOff : Bool) :
    m (Except PassError Pass) := do
  if limits.exceededBy g.size then
    return .error (.tooLarge g.name g.entry g.size limits.maxNodes)
  else if calledOff then return .error .calledOff
  else
    match ← Pass.run (g.plan s limits.maxLoopVisits) stepAllowance (Pass.start g) with
    | some p => return .ok p
    | none => return .error (.unsettled g.name)

/-- The findings of a pass, by node. -/
def Pass.diagnostics (p : Pass) (g : Graph) : List Diagnostic :=
  (List.range g.size).flatMap fun id =>
    (p.findings.getD id []).map fun finding => { location := { function := g.name, node := id }, finding }

end FlowTyping.Graph
