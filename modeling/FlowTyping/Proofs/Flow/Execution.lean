import FlowTyping.Flow.Graph
import Mathlib.Logic.Function.Iterate

/-!
# Runs of bodies and walks of graphs

What tests answer and which case a switch takes is not decided by a body: an oracle answers, and may look
at everything that happened so far. Given the answers, a body runs in one way, and so does its graph.

* **`Event`** — what can be seen of a run: tests, choices, assignments, calls, and how it ends.
* **`Stmt.exec`**, **`Stmt.execute`** — runs a body statement by statement. Every time that a loop is
  entered it goes round as often as the fuel allows.
* **`Graph.advance`**, **`Graph.walk`** — walks a graph node by node, from the entry on.
-/

namespace FlowTyping

/-- Something that happens in a run. -/
inductive Event where
  | tested (guard : Option Guard) (held : Bool)
  /-- A switch took a slot: one of its case values, or the last slot if none of them. -/
  | chose (site : SwitchSite) (slot : Nat)
  | assigned (var : String) (value : Value) (declare : Bool) (ascribed : Option Ty)
  | called (site : CallSite)
  | returned (value : Option Value)
  | threw (value : Option Value)
  | fellOff
  deriving Repr

/-- Answers to tests and switches. They may depend on what happened before. -/
structure Oracle where
  test : List Event → Option Guard → Bool
  choose : List Event → (site : SwitchSite) → Fin (site.cases.length + 1)

/-! ## Running statements -/

/-- Evaluates a condition from left to right, as far as needed. -/
def Cond.eval (o : Oracle) : Cond → List Event → Bool × List Event
  | .test g, past =>
    let held := o.test past g
    (held, past ++ [.tested g held])
  | .not c, past =>
    let (held, past) := c.eval o past
    (!held, past)
  | .and left right, past =>
    match left.eval o past with
    | (true, past) => right.eval o past
    | (false, past) => (false, past)
  | .or left right, past =>
    match left.eval o past with
    | (true, past) => (true, past)
    | (false, past) => right.eval o past

/-- Evaluates a condition that may be missing; then there is nothing to test. -/
def Cond.eval? (o : Oracle) : Option Cond → List Event → Bool × List Event
  | none, past => (true, past)
  | some c, past => c.eval o past

/-- How a block ends. -/
inductive Ending where
  /-- It falls off its end. -/
  | normal
  /-- The innermost loop or switch is left. -/
  | leave
  /-- The innermost loop goes round again. -/
  | again
  /-- The function returns or throws. -/
  | stopped
  /-- A loop is out of fuel. -/
  | running
  deriving DecidableEq, Repr

/-- The outcome of a loop or switch that is left by its block. -/
def Ending.caught : Ending → Ending
  | .leave => .normal
  | out => out

/-- Goes round a loop. -/
def goRound (test : List Event → Bool × List Event) (body : List Event → Ending × List Event) :
    Nat → List Event → Ending × List Event
  | 0, past => (.running, past)
  | rounds + 1, past =>
    match test past with
    | (false, past) => (.normal, past)
    | (true, past) =>
      match body past with
      | (.normal, past) | (.again, past) => goRound test body rounds past
      | (out, past) => (out.caught, past)

mutual
/-- Runs a statement after some events. -/
def Stmt.exec (o : Oracle) (fuel : Nat) : Stmt → List Event → Ending × List Event
  | .declare name ascribed value, past =>
    (.normal, past ++ [.assigned name (value.getD (.const .undefined)) true ascribed])
  | .assign name (some value), past => (.normal, past ++ [.assigned name value false none])
  | .assign _ none, past => (.normal, past)
  | .call site, past => (.normal, past ++ [.called site])
  | .ret value, past => (.stopped, past ++ [.returned value])
  | .throw value, past => (.stopped, past ++ [.threw value])
  | .cond c yes no, past =>
    match Cond.eval? o c past with
    | (true, past) => execAll o fuel yes past
    | (false, past) => execAll o fuel no past
  | .loop c body, past => goRound (Cond.eval? o c) (execAll o fuel body) fuel past
  | .switch v prop clauses default, past =>
    let site := SwitchSite.ofClauses v prop clauses default
    let slot := o.choose past site
    let past := past ++ [.chose site slot]
    let otherwise :=
      match default with
      | none => (.normal, past)
      | some body => execAll o fuel body past
    let (out, past) := (execClause o fuel slot clauses past).getD otherwise
    (out.caught, past)
  | .leave, past => (.leave, past)
  | .again, past => (.again, past)

/-- Runs statements one after the other, as long as none of them jumps or stops. -/
def execAll (o : Oracle) (fuel : Nat) : List Stmt → List Event → Ending × List Event
  | [], past => (.normal, past)
  | s :: rest, past =>
    match s.exec o fuel past with
    | (.normal, past) => execAll o fuel rest past
    | ended => ended

/-- Runs the clause that a case value belongs to, if there is one. -/
def execClause (o : Oracle) (fuel : Nat) (value : Nat) :
    List (List Ty × List Stmt) → List Event → Option (Ending × List Event)
  | [], _ => none
  | (values, body) :: rest, past =>
    if value < values.length then some (execAll o fuel body past)
    else execClause o fuel (value - values.length) rest past
end

/-- Runs a body: whether it came to its end, and what happened. -/
def Stmt.execute (o : Oracle) (fuel : Nat) (body : List Stmt) : Bool × List Event :=
  match execAll o fuel body [] with
  | (.running, past) => (false, past)
  | (.stopped, past) => (true, past)
  | (_, past) => (true, past ++ [.fellOff])

/-! ## Walking graphs -/

/-- What a node does, and by which slot the walk goes on. -/
def Op.run (o : Oracle) (past : List Event) : Op → Option Nat × List Event
  | .entry | .merge => (some 0, past)
  | .assign var value declare ascribed => (some 0, past ++ [.assigned var value declare ascribed])
  | .branch g =>
    let held := o.test past g
    (some (if held then 0 else 1), past ++ [.tested g held])
  | .call site => (some 0, past ++ [.called site])
  | .switch site =>
    let slot := o.choose past site
    (some slot, past ++ [.chose site slot])
  | .ret value => (none, past ++ [.returned value])
  | .throw value => (none, past ++ [.threw value])
  | .exit => (none, past ++ [.fellOff])
  | .other _ => (none, past)

/-- Where a walk is, and what happened on it. A walk that came to its end is nowhere. -/
structure Walk where
  position : Option Nat
  past : List Event
  deriving Repr

namespace Graph

/-- Goes on to the next node. -/
def advance (g : Graph) (o : Oracle) (w : Walk) : Walk :=
  match w.position.bind (g.nodes[·]?) with
  | none => w
  | some n =>
    let (slot, past) := n.op.run o w.past
    { position := slot.bind (n.succs[·]?), past }

/-- The walk after a number of steps from the entry. -/
def walk (g : Graph) (o : Oracle) (steps : Nat) : Walk :=
  (g.advance o)^[steps] { position := some g.entry, past := [] }

end Graph
end FlowTyping
