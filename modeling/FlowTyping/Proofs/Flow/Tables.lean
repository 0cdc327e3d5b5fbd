import FlowTyping.Proofs.Flow.Step
import FlowTyping.Proofs.Store.Ideal
import FlowTyping.Proofs.Store.Sound

/-!
# Passes over tables

A pass keeps its state in hash maps, which proofs know by lookups only. Here the same state is kept in
lists, over which a pass on a given graph can be computed. Every step of a pass is one of its table.

* **`Table.Shows`** — a table has what a state has.
* **`Table.Shows.run`** — a run of a table is shown by a run of the pass.
* **`Table.says_run_enter`** — how to compute one in a sound universe, node by node.
-/

namespace FlowTyping.Graph.Pass

open Universe

/-- The state of a pass, in lists. -/
structure Table where
  entered : List (Nat × Env) := []
  visits : List (Nat × Nat) := []
  edges : List ((Nat × Nat) × Env) := []
  declared : Env
  waiting : List Nat := []

namespace Table

variable {plan : Plan} {T T' : Table} {p q : Pass} {id : Nat}

/-- A state has what the table lists. -/
structure Shows (T : Table) (p : Pass) : Prop where
  entered : ∀ id : Nat, p.entered[id]? = T.entered.lookup id
  visits : ∀ id : Nat, p.visits.getD id 0 = (T.visits.lookup id).getD 0
  edges : ∀ edge : Nat × Nat, p.edges[edge]? = T.edges.lookup edge
  declared : p.declared = T.declared
  waiting : ∀ id : Nat, p.waiting.contains id = T.waiting.contains id

/-! ## Steps of tables -/

def start (g : Graph) : Table := { declared := g.declared, waiting := [g.entry] }

def next? (T : Table) (plan : Plan) : Option Nat := plan.order.find? T.waiting.contains

def noteEdge (T : Table) (id slot succ : Nat) (out : Option Env) : Table :=
  match out, T.edges.lookup (id, slot) with
  | none, none => T
  | none, some _ =>
    { T with edges := T.edges.filter (·.1 != (id, slot)), waiting := succ :: T.waiting }
  | some env, some old =>
    if old.same env then T
    else { T with edges := ((id, slot), env) :: T.edges, waiting := succ :: T.waiting }
  | some env, none => { T with edges := ((id, slot), env) :: T.edges, waiting := succ :: T.waiting }

def noteEdges (T : Table) (id : Nat) : (slot : Nat) → List Nat → List (Option Env) → Table
  | slot, succ :: succs, outs =>
    noteEdges (T.noteEdge id slot succ (outs.headD none)) id (slot + 1) succs outs.tail
  | _, [], _ => T

def record (T : Table) (id : Nat) (succs : List Nat) (env : Env) (o : Outcome) : Table :=
  noteEdges
    { T with
      entered := (id, env) :: T.entered
      visits := (id, (T.visits.lookup id).getD 0 + 1) :: T.visits
      declared := o.declared } id 0 succs o.outs

def liveInto (T : Table) (g : Graph) (id : Nat) : List Env :=
  (g.predecessors id).flatMap fun pred =>
    (g.succs pred).zipIdx.filterMap fun (succ, slot) =>
      if succ = id then T.edges.lookup (pred, slot) else none

def incoming (T : Table) (g : Graph) (id : Nat) : InUniverse (Option Env) := do
  if id = g.entry then return some (← entryEnv g.params {})
  else
    match T.liveInto g id with
    | [] => return none
    | envs => return some (← Env.joinAll envs (unbound T.declared))

/-- The environment in which a node would be entered; a loop header widens. -/
def arriving (T : Table) (plan : Plan) (id : Nat) : InUniverse (Option Env) := do
  match ← T.incoming plan.graph id with
  | none => return none
  | some env =>
    match T.entered.lookup id with
    | some old =>
      if plan.headers.contains id then
        let limit := plan.maxLoopVisits ≤ (T.visits.lookup id).getD 0
        return some { bindings := ← widenBindings T.declared old limit env.bindings }
      else return some env
    | none => return some env

def stale (T : Table) (id : Nat) (env : Env) : Bool :=
  ((T.entered.lookup id).map fun old => old.same env).getD false

def visit (T : Table) (plan : Plan) (id : Nat) : InUniverse Table := do
  match plan.graph.nodes[id]? with
  | none => return T
  | some n =>
    match ← T.arriving plan id with
    | none => return T
    | some env =>
      if T.stale id env then return T
      else
        return T.record id n.succs env
          (← transfer plan.surroundings plan.graph.returns T.declared n.op env)

def run (plan : Plan) : (fuel : Nat) → Table → InUniverse (Option Table)
  | 0, T => return if (T.next? plan).isNone then some T else none
  | n + 1, T => do
    match T.next? plan with
    | none => return some T
    | some id => run plan n (← visit { T with waiting := T.waiting.filter (· != id) } plan id)

/-! ## What tables show -/

theorem lookup_cons {α β : Type} [BEq α] (k a : α) (b : β) (rest : List (α × β)) :
    ((a, b) :: rest).lookup k = if k == a then some b else rest.lookup k := by
  rw [List.lookup_cons]
  cases k == a <;> rfl

theorem lookup_filter_ne {β : Type} (k a : Nat × Nat) (rest : List ((Nat × Nat) × β)) :
    (rest.filter (·.1 != a)).lookup k = if k = a then none else rest.lookup k := by
  induction rest with
  | nil => simp
  | cons b rest ih =>
    obtain ⟨c, b⟩ := b
    rw [List.filter_cons, lookup_cons]
    by_cases hc : c = a
    · subst hc
      rw [if_neg (by simp), ih]
      by_cases hk : k = c
      · simp [hk]
      · simp [hk]
    · rw [if_pos (by simpa using hc), lookup_cons, ih]
      by_cases hk : k = c
      · subst hk
        simp [hc]
      · simp [hk]

namespace Shows

theorem start (g : Graph) : (Table.start g).Shows (Pass.start g) where
  entered id := by simp [Pass.start, Table.start]
  visits id := by simp [Pass.start, Table.start]
  edges edge := by simp [Pass.start, Table.start]
  declared := rfl
  waiting id := by
    rw [Pass.start, Table.start, Std.HashSet.contains_insert, Std.HashSet.contains_empty,
      List.contains_cons, List.contains_nil, BEq.comm]

theorem next? (hs : T.Shows p) : p.next? plan = T.next? plan := by
  rw [Pass.next?, Table.next?]
  congr 1
  funext id
  exact hs.waiting id

theorem noteEdge (hs : T.Shows p) (id slot succ : Nat) (out : Option Env) :
    (T.noteEdge id slot succ out).Shows (p.noteEdge id slot succ out) := by
  have hinsert (x : Nat) : (p.waiting.insert succ).contains x = (succ :: T.waiting).contains x := by
    rw [Std.HashSet.contains_insert, hs.waiting, List.contains_cons, BEq.comm]
  have hedge (env : Env) (edge : Nat × Nat) : (p.edges.insert (id, slot) env)[edge]? =
      (((id, slot), env) :: T.edges).lookup edge := by
    rw [Std.HashMap.getElem?_insert, lookup_cons, hs.edges, BEq.comm]
  rw [Pass.noteEdge.eq_def, Table.noteEdge.eq_def, hs.edges]
  cases out with
  | none =>
    cases T.edges.lookup (id, slot) with
    | none => exact hs
    | some old =>
      refine ⟨hs.entered, hs.visits, fun edge => ?_, hs.declared, hinsert⟩
      show (p.edges.erase (id, slot))[edge]? = (T.edges.filter (·.1 != (id, slot))).lookup edge
      rw [Std.HashMap.getElem?_erase, lookup_filter_ne, hs.edges, BEq.comm]
      by_cases he : edge = (id, slot) <;> simp [he]
  | some env =>
    cases T.edges.lookup (id, slot) with
    | none => exact ⟨hs.entered, hs.visits, hedge env, hs.declared, hinsert⟩
    | some old =>
      dsimp only
      split
      · exact hs
      · exact ⟨hs.entered, hs.visits, hedge env, hs.declared, hinsert⟩

theorem noteEdges (hs : T.Shows p) (id slot : Nat) (succs : List Nat) (outs : List (Option Env)) :
    (T.noteEdges id slot succs outs).Shows (p.noteEdges id slot succs outs) := by
  induction succs generalizing T p slot outs with
  | nil => exact hs
  | cons succ succs ih =>
    rw [Pass.noteEdges, Table.noteEdges]
    exact ih (hs.noteEdge id slot succ (outs.headD none)) (slot + 1) outs.tail

theorem record (hs : T.Shows p) (id : Nat) (succs : List Nat) (env : Env) (o : Outcome) :
    (T.record id succs env o).Shows (p.record id succs env o) := by
  rw [Pass.record, Table.record]
  refine noteEdges (Shows.mk (fun x => ?_) (fun x => ?_) ?_ ?_ ?_) id 0 succs o.outs
  · rw [Std.HashMap.getElem?_insert, lookup_cons, hs.entered, BEq.comm]
  · rw [Std.HashMap.getD_insert, lookup_cons, hs.visits, hs.visits, BEq.comm]
    split <;> rfl
  · exact hs.edges
  · rfl
  · exact hs.waiting

theorem arriving (hs : T.Shows p) (id : Nat) : Pass.arriving p plan id = T.arriving plan id := by
  have hlive : p.liveInto plan.graph id = T.liveInto plan.graph id := by
    simp only [Pass.liveInto, Table.liveInto, hs.edges]
  rw [Pass.arriving, Pass.incoming, hlive, hs.entered, hs.declared, hs.visits]
  rfl

/-- Looking at a node does the same to a pass and to its table, and to the universe. -/
theorem visit (hs : T.Shows p) (id : Nat) (u : Universe) :
    ((T.visit plan id).run u).1.Shows ((p.visit plan id : InUniverse Pass).run u).1 ∧
      ((T.visit plan id).run u).2 = ((p.visit plan id : InUniverse Pass).run u).2 := by
  have hstale (env : Env) : Pass.stale p id env = T.stale id env := by
    rw [Pass.stale, Table.stale, hs.entered]
  rw [visit_eq, Table.visit, hs.arriving, hs.declared]
  cases plan.graph.nodes[id]? with
  | none => exact ⟨hs, rfl⟩
  | some n =>
    dsimp only
    rw [StateT.run_bind, StateT.run_bind]
    rcases (T.arriving plan id).run u with ⟨_ | env, v⟩
    · exact ⟨hs, rfl⟩
    · dsimp only [bind]
      rw [hstale]
      split
      · exact ⟨hs, rfl⟩
      · exact ⟨hs.record id n.succs env _, rfl⟩

/-- A run of a table that ends is shown by a run of the pass, in the same universe. -/
theorem run (hs : T.Shows p) {fuel : Nat} {u v : Universe} (hr : (T.run plan fuel).run u = (some T', v)) :
    ∃ q : Moment, Moment.run { toPass := p, store := u } plan fuel = some q ∧ T'.Shows q.toPass ∧ q.store = v := by
  induction fuel generalizing T p u with
  | zero =>
    obtain ⟨hT, rfl⟩ := Prod.mk.inj hr
    rw [Moment.run_zero]
    show ∃ q, (if (p.next? plan).isNone then _ else _) = _ ∧ _
    rw [hs.next?]
    split at hT
    · rename_i hnone
      obtain rfl := Option.some.inj hT
      exact ⟨{ toPass := p, store := u }, if_pos hnone, hs, rfl⟩
    · simp at hT
  | succ fuel ih =>
    cases hnext : T.next? plan with
    | none =>
      have hdone : Moment.step { toPass := p, store := u } plan = none :=
        Moment.step_eq_none_iff.2 (hs.next?.trans hnext)
      rw [Moment.run_succ, hdone]
      obtain ⟨hT, rfl⟩ : some T = some T' ∧ u = v := by
        rw [Table.run, hnext] at hr
        exact Prod.mk.inj hr
      obtain rfl := Option.some.inj hT
      exact ⟨_, rfl, hs, rfl⟩
    | some id =>
      -- the list and the set have lost the same node, and that node is visited next
      have herase : Table.Shows { T with waiting := T.waiting.filter (· != id) }
          { p with waiting := p.waiting.erase id } := by
        refine ⟨hs.entered, hs.visits, hs.edges, hs.declared, fun x => ?_⟩
        have hne : (id == x) = false ↔ x ≠ id := by
          rw [beq_eq_false_iff_ne]
          exact ne_comm
        rw [Std.HashSet.contains_erase, hs.waiting, Bool.eq_iff_iff]
        simp [and_comm, hne]
      obtain ⟨hshows, hstore⟩ := herase.visit id u
      have hstep : Moment.step { toPass := p, store := u } plan = some
          { toPass := ((Pass.visit { p with waiting := p.waiting.erase id } plan id : InUniverse Pass).run u).1
            store := ((Pass.visit { p with waiting := p.waiting.erase id } plan id : InUniverse Pass).run u).2 } := by
        rw [Moment.step, Pass.step, show p.next? plan = some id from hs.next?.trans hnext]
        rfl
      rw [Moment.run_succ, hstep, ← hstore]
      refine ih hshows ?_
      rw [Table.run, hnext] at hr
      exact hr

end Shows

/-! ## One node at a time -/

/-- A table with a node entered: its environment and visits, the new edges, and what waits then. -/
def entering (T : Table) (id : Nat) (env : Env) (visits : Nat) (edges : List ((Nat × Nat) × Env))
    (waiting : List Nat) : Table :=
  { T with
    entered := (id, env) :: T.entered
    visits := (id, visits) :: T.visits
    edges := edges ++ T.edges
    waiting }

/-- The entry is entered with the parameters. -/
theorem arriving_entry (hid : id = plan.graph.entry) (hfresh : T.entered.lookup id = none) :
    T.arriving plan id = (do return some (← entryEnv plan.graph.params {})) := by
  rw [arriving, incoming, if_pos hid, bind_assoc]
  refine bind_congr fun env => ?_
  rw [pure_bind]
  dsimp only
  rw [hfresh]

/-- Of what comes of a node, a table notes what leaves it and the declared types. -/
theorem record_congr {o : Outcome} {outs : List (Option Env)} {declared : Env} (houts : o.outs = outs)
    (hdeclared : o.declared = declared) (id : Nat) (succs : List Nat) (env : Env) :
    T.record id succs env o = T.record id succs env { outs, declared } := by
  unfold record
  rw [houts, hdeclared]

/-- What a run does in any universe where its next node is entered. -/
theorem run_enter {fuel : Nat} {n : Node} {u v w : Universe} {o : Outcome} (id : Nat) (env : Env) (T' : Table)
    (hnext : T.next? plan = some id) (hn : plan.graph.nodes[id]? = some n)
    (ha : (T.arriving plan id).run u = (some env, v)) (hst : T.stale id env = false)
    (ho : (transfer plan.surroundings plan.graph.returns T.declared n.op env : InUniverse Outcome).run v = (o, w))
    (hrecord : { T with waiting := T.waiting.filter (· != id) }.record id n.succs env o = T') :
    (run plan (fuel + 1) T).run u = (run plan fuel T').run w := by
  have ha : (arriving { T with waiting := T.waiting.filter (· != id) } plan id).run u = (some env, v) := ha
  have hst : stale { T with waiting := T.waiting.filter (· != id) } id env = false := hst
  rw [run, hnext]
  dsimp only [visit]
  rw [hn]
  simp only [bind_assoc]
  rw [run_bind_of_run ha]
  dsimp only
  rw [if_neg (by simp [hst])]
  simp only [bind_assoc, pure_bind]
  rw [run_bind_of_run ho, hrecord]

variable {h : Hierarchy} {u : Universe} {end' : Option Table}

/-- A run goes on from where its next node is entered, with what is known of the universe by then. -/
theorem says_run_enter_of {fuel : Nat} {n : Node} {P : Universe → Prop} (id : Nat) (env : Env)
    (outs : List (Option Env)) (T' : Table)
    (hnext : T.next? plan = some id) (hn : plan.graph.nodes[id]? = some n)
    (ha : u.Yields h (T.arriving plan id) fun v found => found = some env ∧ P v) (hst : T.stale id env = false)
    (ho : ∀ v : Universe, u.Grows h v → P v →
      v.Yields h (transfer plan.surroundings plan.graph.returns T.declared n.op env) fun _ o =>
        o.outs = outs ∧ o.declared = T.declared)
    (hrecord : { T with waiting := T.waiting.filter (· != id) }.record id n.succs env
      { outs, declared := T.declared } = T')
    (hrest : ∀ v : Universe, u.Grows h v → P v → v.Says h (run plan fuel T') end') :
    u.Says h (run plan (fuel + 1) T) end' := by
  have ha : u.Yields h (arriving { T with waiting := T.waiting.filter (· != id) } plan id) fun v found =>
    found = some env ∧ P v := ha
  have hst : stale { T with waiting := T.waiting.filter (· != id) } id env = false := hst
  rw [run, hnext]
  dsimp only [visit]
  rw [hn]
  simp only [bind_assoc]
  refine ha.bind fun v found _ huv hfound => ?_
  obtain ⟨rfl, hP⟩ := hfound
  dsimp only
  rw [if_neg (by simp [hst])]
  simp only [bind_assoc, pure_bind]
  refine (ho v huv hP).bind fun w o _ hvw ho => ?_
  rw [record_congr ho.1 ho.2, hrecord]
  exact (hrest v huv hP).grows hvw

/-- A run goes on from where its next node is entered. -/
theorem says_run_enter {fuel : Nat} {n : Node} (id : Nat) (env : Env) (outs : List (Option Env)) (T' : Table)
    (hnext : T.next? plan = some id) (hn : plan.graph.nodes[id]? = some n)
    (ha : u.Says h (T.arriving plan id) (some env)) (hst : T.stale id env = false)
    (ho : u.Yields h (transfer plan.surroundings plan.graph.returns T.declared n.op env) fun _ o =>
      o.outs = outs ∧ o.declared = T.declared)
    (hrecord : { T with waiting := T.waiting.filter (· != id) }.record id n.succs env
      { outs, declared := T.declared } = T')
    (hrest : u.Says h (run plan fuel T') end') : u.Says h (run plan (fuel + 1) T) end' :=
  says_run_enter_of (P := fun _ => True) id env outs T' hnext hn (ha.imp fun _ _ _ _ hfound => ⟨hfound, trivial⟩) hst
    (fun _ huv _ => ho.grows huv) hrecord fun _ huv _ => hrest.grows huv

/-- A loop header that is looked at again widens what comes in. -/
theorem says_arriving_header {old : Env} {found : Option Env} (envs : List Env) (visits : Nat)
    (hid : id ≠ plan.graph.entry) (hnil : envs ≠ []) (hlive : T.liveInto plan.graph id = envs)
    (hold : T.entered.lookup id = some old) (hvisits : (T.visits.lookup id).getD 0 = visits)
    (hheader : plan.headers.contains id = true)
    (hwidened : u.Says h (do
      let all ← Env.joinAll envs (unbound T.declared)
      return some { bindings := ← widenBindings T.declared old (plan.maxLoopVisits ≤ visits) all.bindings }) found) :
    u.Says h (T.arriving plan id) found := by
  refine (congrArg (fun x => u.Says h x found) ?_).mpr hwidened
  rw [arriving, incoming, if_neg hid, hlive]
  cases envs with
  | nil => exact absurd rfl hnil
  | cons e es =>
    dsimp only
    rw [bind_assoc]
    refine bind_congr fun env => ?_
    rw [pure_bind]
    dsimp only
    rw [hold]
    dsimp only
    rw [if_pos hheader, hvisits]

/-- A run goes on from where no edge into its next node is live. -/
theorem says_run_pass {fuel : Nat} (id : Nat) (T' : Table) (hnext : T.next? plan = some id)
    (ha : u.Says h (T.arriving plan id) none)
    (hafter : { T with waiting := T.waiting.filter (· != id) } = T')
    (hrest : u.Says h (run plan fuel T') end') : u.Says h (run plan (fuel + 1) T) end' := by
  have ha : u.Says h (arriving { T with waiting := T.waiting.filter (· != id) } plan id) none := ha
  rw [run, hnext]
  dsimp only [visit]
  cases plan.graph.nodes[id]? with
  | none =>
    rw [pure_bind, hafter]
    exact hrest
  | some n =>
    simp only [bind_assoc]
    refine ha.bind ?_
    dsimp only
    rw [pure_bind, hafter]
    exact hrest

end Table
end FlowTyping.Graph.Pass
