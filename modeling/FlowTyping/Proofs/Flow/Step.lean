import FlowTyping.Proofs.Flow.Env

/-!
# The steps of a pass

One step takes the earliest waiting node and looks at it. Either nothing comes of it, or the node is
entered: its environment, its visits and the declared types are noted, and so are the environments that
leave its slots. A node waits after a step only if it waited before or lies behind an edge that changed.

What a step computes, it computes in a universe, which goes from step to step with the state of the pass.
Nothing is asked of the universe here: it may hold any types and remember any answers.

* **`Moment`** — the state of a pass with its universe.
* **`Moment.arrival`**, **`Moment.outcome`** — the environment in which a node would be entered, and what
  comes of entering it.
* **`Pass.step_cases`** — all that a step can do.
* **`Pass.record_edges`**, **`Pass.record_waiting`** — what entering a node does to edges and to
  waiting nodes.
* **`Pass.Reached`** — the moments of a run, and what holds of all of them.
-/

namespace FlowTyping.Graph

/-! ## Moments -/

/-- The state of a pass, and the universe that it computes in. -/
structure Moment extends Pass where
  store : Universe

/-- What a computation of a state leaves: the state with the universe after it. -/
def Moment.of? (r : Option Pass × Universe) : Option Moment :=
  r.1.map fun p => { toPass := p, store := r.2 }

/-- A pass that has only the entry to look at. -/
def Moment.start (g : Graph) (u : Universe) : Moment := { toPass := Pass.start g, store := u }

namespace Pass

variable {plan : Plan} {p q : Pass} {id : Nat}

/-! ## Edges -/

/-- What stands on an edge when an environment was noted: the same one is not written again. -/
def noted (old out : Option Env) : Option Env :=
  match out, old with
  | none, _ => none
  | some env, none => some env
  | some env, some old => if old.same env then some old else some env

theorem same_self (e : Env) : e.same e = true := by
  rw [Env.same, beq_self_eq_true, Bool.true_and, List.all_eq_true]
  rintro ⟨b, b'⟩ hb
  obtain ⟨i, hi, heq⟩ := List.mem_iff_getElem.1 hb
  rw [List.getElem_zip] at heq
  obtain ⟨rfl, rfl⟩ := Prod.mk.inj heq
  simp

/-- What stands on an edge is the noted environment, up to the trees of its types. -/
theorem noted_some (old : Option Env) (env : Env) :
    ∃ e, noted old (some env) = some e ∧ e.same env = true := by
  cases old with
  | none => exact ⟨env, rfl, same_self env⟩
  | some old =>
    rw [noted]
    split
    · rename_i hs
      exact ⟨old, rfl, hs⟩
    · exact ⟨env, rfl, same_self env⟩

theorem noteEdge_edges (p : Pass) (id slot succ : Nat) (out : Option Env) (edge : Nat × Nat) :
    (p.noteEdge id slot succ out).edges[edge]? =
      if edge = (id, slot) then noted p.edges[edge]? out else p.edges[edge]? := by
  rw [noteEdge.eq_def]
  by_cases he : edge = (id, slot)
  · subst he
    rw [if_pos rfl]
    cases out with
    | none => cases hold : p.edges[(id, slot)]? <;> simp [noted, hold]
    | some env =>
      cases hold : p.edges[(id, slot)]? with
      | none => simp [noted]
      | some old =>
        by_cases hs : old.same env = true
        · simp [noted, hs, hold]
        · simp [noted, hs]
  · rw [if_neg he]
    have hne : ((id, slot) == edge) = false := beq_eq_false_iff_ne.2 (Ne.symm he)
    cases out with
    | none => cases hold : p.edges[(id, slot)]? <;> simp [Std.HashMap.getElem?_erase, hne]
    | some env =>
      cases hold : p.edges[(id, slot)]? with
      | none => simp [Std.HashMap.getElem?_insert, hne]
      | some old =>
        dsimp only
        split <;> simp [Std.HashMap.getElem?_insert, hne]

/-- Noting an environment changes nothing, or the node behind the edge waits. -/
theorem noteEdge_waiting (p : Pass) (id slot succ : Nat) (out : Option Env) :
    (p.noteEdge id slot succ out).waiting = p.waiting ∧
        noted p.edges[(id, slot)]? out = p.edges[(id, slot)]? ∨
      (p.noteEdge id slot succ out).waiting = p.waiting.insert succ := by
  rw [noteEdge.eq_def]
  cases out with
  | none =>
    cases p.edges[(id, slot)]? with
    | none => exact .inl ⟨rfl, rfl⟩
    | some old => exact .inr rfl
  | some env =>
    cases p.edges[(id, slot)]? with
    | none => exact .inr rfl
    | some old =>
      rw [noted]
      dsimp only
      split
      · exact .inl ⟨rfl, rfl⟩
      · exact .inr rfl

/-- Noting an environment touches edges and waiting nodes only. -/
theorem noteEdge_frame (p : Pass) (id slot succ : Nat) (out : Option Env) :
    (p.noteEdge id slot succ out).entered = p.entered ∧
      (p.noteEdge id slot succ out).visits = p.visits ∧
      (p.noteEdge id slot succ out).declared = p.declared := by
  rw [noteEdge.eq_def]
  split
  · exact ⟨rfl, rfl, rfl⟩
  · exact ⟨rfl, rfl, rfl⟩
  · split <;> exact ⟨rfl, rfl, rfl⟩
  · exact ⟨rfl, rfl, rfl⟩

/-! ## The slots of a node -/

theorem noteEdges_frame (p : Pass) (id slot : Nat) (succs : List Nat) (outs : List (Option Env)) :
    (p.noteEdges id slot succs outs).entered = p.entered ∧
      (p.noteEdges id slot succs outs).visits = p.visits ∧
      (p.noteEdges id slot succs outs).declared = p.declared := by
  induction succs generalizing p slot outs with
  | nil => exact ⟨rfl, rfl, rfl⟩
  | cons succ succs ih =>
    rw [noteEdges]
    have hone := noteEdge_frame p id slot succ (outs.headD none)
    have hrest := ih (p.noteEdge id slot succ (outs.headD none)) (slot + 1) outs.tail
    exact ⟨hrest.1.trans hone.1, hrest.2.1.trans hone.2.1, hrest.2.2.trans hone.2.2⟩

/-- Each slot gets what leaves it; the other edges stay. -/
theorem noteEdges_edges (p : Pass) (id slot : Nat) (succs : List Nat) (outs : List (Option Env))
    (n k : Nat) :
    (p.noteEdges id slot succs outs).edges[(n, k)]? =
      if n = id ∧ slot ≤ k ∧ k < slot + succs.length then
        noted p.edges[(n, k)]? (outs[k - slot]?.getD none)
      else p.edges[(n, k)]? := by
  induction succs generalizing p slot outs with
  | nil =>
    rw [noteEdges, if_neg]
    rintro ⟨-, hle, hlt⟩
    exact absurd hlt (by simpa using hle)
  | cons succ succs ih =>
    rw [noteEdges, ih, noteEdge_edges, List.length_cons]
    by_cases hn : n = id
    · subst hn
      rcases Nat.lt_trichotomy k slot with hk | rfl | hk
      · rw [if_neg (by omega), if_neg (by simp; omega), if_neg (by omega)]
      · rw [if_neg (by omega), if_pos rfl, if_pos (by simp)]
        cases outs <;> simp
      · have hsub : k - slot = k - (slot + 1) + 1 := by omega
        have hout : outs.tail[k - (slot + 1)]?.getD none = outs[k - slot]?.getD none := by
          rw [hsub]
          cases outs <;> simp
        by_cases hlt : k < slot + (succs.length + 1)
        · rw [if_pos (by omega), if_neg (by simp; omega), if_pos (by omega), hout]
        · rw [if_neg (by omega), if_neg (by simp; omega), if_neg (by omega)]
    · rw [if_neg (by simp [hn]), if_neg (by simp [hn]), if_neg (by simp [hn])]

theorem noteEdges_waiting_mono (p : Pass) (id slot : Nat) (succs : List Nat)
    (outs : List (Option Env)) {x : Nat} (hx : p.waiting.contains x = true) :
    (p.noteEdges id slot succs outs).waiting.contains x = true := by
  induction succs generalizing p slot outs with
  | nil => exact hx
  | cons succ succs ih =>
    refine ih _ _ _ ?_
    rcases noteEdge_waiting p id slot succ (outs.headD none) with ⟨hw, -⟩ | hw
    · rwa [hw]
    · rw [hw, Std.HashSet.contains_insert, hx, Bool.or_true]

/-- Only successors come to wait. -/
theorem noteEdges_waiting (p : Pass) (id slot : Nat) (succs : List Nat) (outs : List (Option Env))
    {x : Nat} (hx : (p.noteEdges id slot succs outs).waiting.contains x = true) :
    p.waiting.contains x = true ∨ x ∈ succs := by
  induction succs generalizing p slot outs with
  | nil => exact .inl hx
  | cons succ succs ih =>
    rw [noteEdges] at hx
    rcases ih _ _ _ hx with hx | hx
    · rcases noteEdge_waiting p id slot succ (outs.headD none) with ⟨hw, -⟩ | hw
      · exact .inl (by rwa [hw] at hx)
      · rw [hw, Std.HashSet.contains_insert, Bool.or_eq_true, beq_iff_eq] at hx
        rcases hx with rfl | hx
        · exact .inr (by simp)
        · exact .inl hx
    · exact .inr (by simp [hx])

/-- The edges into a successor that does not come to wait have not changed. -/
theorem noteEdges_unchanged (p : Pass) (id slot : Nat) (succs : List Nat) (outs : List (Option Env))
    {k x : Nat} (hk : succs[k]? = some x)
    (hx : (p.noteEdges id slot succs outs).waiting.contains x = false) :
    (p.noteEdges id slot succs outs).edges[(id, slot + k)]? = p.edges[(id, slot + k)]? := by
  induction succs generalizing p slot outs k with
  | nil => simp at hk
  | cons succ succs ih =>
    rw [noteEdges] at hx ⊢
    cases k with
    | zero =>
      obtain rfl : succ = x := by simpa using hk
      show (noteEdges _ id (slot + 1) succs outs.tail).edges[(id, slot)]? = p.edges[(id, slot)]?
      rw [noteEdges_edges, if_neg (by omega), noteEdge_edges, if_pos rfl]
      rcases noteEdge_waiting p id slot succ (outs.headD none) with ⟨-, hsame⟩ | hw
      · exact hsame
      · have hwait : (p.noteEdge id slot succ (outs.headD none)).waiting.contains succ = true := by
          rw [hw, Std.HashSet.contains_insert_self]
        rw [noteEdges_waiting_mono _ id (slot + 1) succs outs.tail hwait] at hx
        contradiction
    | succ k =>
      have hrest := ih _ (slot + 1) outs.tail (by simpa using hk) hx
      rw [show slot + (k + 1) = slot + 1 + k by omega, hrest, noteEdge_edges, if_neg]
      simp
      omega

/-! ## Looking at a node -/

/-- The environments on the live edges into a node. -/
theorem mem_liveInto {g : Graph} {env : Env} :
    env ∈ p.liveInto g id ↔
      ∃ n k : Nat, (g.succs n)[k]? = some id ∧ p.edges[(n, k)]? = some env := by
  rw [liveInto, List.mem_flatMap]
  constructor
  · rintro ⟨n, -, henv⟩
    obtain ⟨⟨succ, k⟩, hmem, hsome⟩ := List.mem_filterMap.1 henv
    rw [List.mem_zipIdx_iff_getElem?] at hmem
    by_cases heq : succ = id
    · subst heq
      exact ⟨n, k, hmem, by simpa using hsome⟩
    · simp [heq] at hsome
  · rintro ⟨n, k, hk, henv⟩
    refine ⟨n, ?_, List.mem_filterMap.2 ⟨(id, k), ?_, by simpa using henv⟩⟩
    · have hmem : id ∈ g.succs n := List.mem_of_getElem? hk
      have hn : n < g.size := by
        rw [succs] at hmem
        split at hmem
        · rename_i heq
          exact (Array.getElem?_eq_some_iff.1 heq).1
        · simp at hmem
      simpa [predecessors, hn] using hmem
    · rwa [List.mem_zipIdx_iff_getElem?]

/-- The environment in which a node would be entered; a loop header widens. -/
def arriving (p : Pass) (plan : Plan) (id : Nat) : InUniverse (Option Env) := do
  match ← p.incoming plan.graph id with
  | none => return none
  | some env =>
    match p.entered[id]? with
    | some old =>
      if plan.headers.contains id then
        let limit := plan.maxLoopVisits ≤ p.visits.getD id 0
        return some { bindings := ← widenBindings p.declared old limit env.bindings }
      else return some env
    | none => return some env

/-- Whether a node was entered in the same environment before. -/
def stale (p : Pass) (id : Nat) (env : Env) : Bool := (p.entered[id]?.map fun old => old.same env).getD false

theorem visit_eq (p : Pass) (plan : Plan) (id : Nat) :
    (p.visit plan id : InUniverse Pass) =
      match plan.graph.nodes[id]? with
      | none => pure p
      | some n => do
        match ← p.arriving plan id with
        | none => return p
        | some env =>
          if p.stale id env then return p
          else
            return p.record id n.succs env
              (← transfer plan.surroundings plan.graph.returns p.declared n.op env) := by
  rw [visit.eq_def]
  cases plan.graph.nodes[id]? with
  | none => rfl
  | some n =>
    dsimp only
    rw [arriving, bind_assoc]
    refine bind_congr fun found => ?_
    cases found with
    | none => rfl
    | some env =>
      unfold stale
      cases p.entered[id]? with
      | none => rfl
      | some old =>
        cases plan.headers.contains id with
        | true => rfl
        | false => rfl

theorem run_visit (p : Pass) (plan : Plan) (id : Nat) (u : Universe) :
    (p.visit plan id : InUniverse Pass).run u =
      match plan.graph.nodes[id]? with
      | none => (p, u)
      | some n =>
        match (p.arriving plan id).run u with
        | (none, v) => (p, v)
        | (some env, v) =>
          if p.stale id env then (p, v)
          else
            let entered := (transfer plan.surroundings plan.graph.returns p.declared n.op env :
              InUniverse Outcome).run v
            (p.record id n.succs env entered.1, entered.2) := by
  rw [visit_eq]
  cases plan.graph.nodes[id]? with
  | none => rfl
  | some n =>
    dsimp only
    rw [StateT.run_bind]
    rcases (p.arriving plan id).run u with ⟨_ | env, v⟩
    · rfl
    · dsimp only [bind]
      split <;> rfl

/-! ## Entering a node -/

section Record

variable (p : Pass) (id : Nat) (succs : List Nat) (env : Env) (o : Outcome)

theorem record_entered : (p.record id succs env o).entered = p.entered.insert id env := by
  rw [record, (noteEdges_frame _ id 0 succs o.outs).1]

theorem record_visits :
    (p.record id succs env o).visits = p.visits.insert id (p.visits.getD id 0 + 1) := by
  rw [record, (noteEdges_frame _ id 0 succs o.outs).2.1]

theorem record_declared : (p.record id succs env o).declared = o.declared := by
  rw [record, (noteEdges_frame _ id 0 succs o.outs).2.2]

theorem record_edges (n k : Nat) :
    (p.record id succs env o).edges[(n, k)]? =
      if n = id ∧ k < succs.length then noted p.edges[(n, k)]? (o.outs[k]?.getD none)
      else p.edges[(n, k)]? := by
  rw [record, noteEdges_edges]
  simp

/-- Only successors come to wait. -/
theorem record_waiting {x : Nat} (hx : (p.record id succs env o).waiting.contains x = true) :
    p.waiting.contains x = true ∨ x ∈ succs := by
  rw [record] at hx
  have hwait := noteEdges_waiting _ id 0 succs o.outs hx
  exact hwait

theorem record_waiting_mono {x : Nat} (hx : p.waiting.contains x = true) :
    (p.record id succs env o).waiting.contains x = true := by
  rw [record]
  exact noteEdges_waiting_mono _ id 0 succs o.outs hx

/-- The edges into a node that does not come to wait have not changed. -/
theorem record_unchanged {k x : Nat} (hk : succs[k]? = some x)
    (hx : (p.record id succs env o).waiting.contains x = false) :
    (p.record id succs env o).edges[(id, k)]? = p.edges[(id, k)]? := by
  rw [record] at hx ⊢
  simpa using noteEdges_unchanged _ id 0 succs o.outs hk hx

end Record

end Pass

/-! ## One step -/

namespace Moment

variable (p : Moment) (plan : Plan) (id : Nat)

/-- The environment in which a node would be entered. -/
def arrival : Option Env := ((p.arriving plan id).run p.store).1

/-- The universe in which it would be entered. -/
def arrived : Universe := ((p.arriving plan id).run p.store).2

/-- What comes of entering a node in an environment. -/
def outcome (n : Node) (env : Env) : Outcome :=
  ((transfer plan.surroundings plan.graph.returns p.declared n.op env : InUniverse Outcome).run
    (p.arrived plan id)).1

/-- The universe that entering a node leaves. -/
def left (n : Node) (env : Env) : Universe :=
  ((transfer plan.surroundings plan.graph.returns p.declared n.op env : InUniverse Outcome).run
    (p.arrived plan id)).2

/-- The next moment; none when no node is next. -/
def step : Option Moment := of? ((p.toPass.step plan : InUniverse (Option Pass)).run p.store)

/-- The moment in which a run ends within a number of steps. -/
def run (fuel : Nat) : Option Moment := of? ((Pass.run plan fuel p.toPass : InUniverse (Option Pass)).run p.store)

theorem run_zero : p.run plan 0 = if (p.next? plan).isNone then some p else none := by
  rw [run, Pass.run]
  cases p.next? plan <;> rfl

theorem step_eq_none_iff {p : Moment} {plan : Plan} : p.step plan = none ↔ p.next? plan = none := by
  rw [step, Pass.step.eq_def]
  cases p.next? plan with
  | none => exact ⟨fun _ => rfl, fun _ => rfl⟩
  | some id => exact iff_of_false (fun h => nomatch h) (by simp)

theorem run_succ (fuel : Nat) :
    p.run plan (fuel + 1) = match p.step plan with
      | none => some p
      | some q => q.run plan fuel := by
  cases hnext : p.next? plan with
  | none =>
    rw [step_eq_none_iff.2 hnext, run, Pass.run, Pass.step.eq_def, hnext]
    rfl
  | some id =>
    rw [run, Pass.run, step, Pass.step.eq_def, hnext]
    rfl

end Moment

namespace Pass

variable {plan : Plan} {p q : Moment} {id : Nat}

/-- A node is entered in an environment. -/
structure Enters (plan : Plan) (p : Moment) (id : Nat) (n : Node) (env : Env) (q : Moment) : Prop where
  node : plan.graph.nodes[id]? = some n
  arrives : p.arrival plan id = some env
  fresh : p.stale id env = false
  pass : q.toPass = { p.toPass with waiting := p.waiting.erase id }.record id n.succs env
    (p.outcome plan id n env)
  store : q.store = p.left plan id n env

/-- Nothing comes of looking at a node: it is none, or no edge into it is live, or it was entered in
the same environment before. -/
structure Passes (plan : Plan) (p : Moment) (id : Nat) (q : Moment) : Prop where
  cause : ∀ env, p.arrival plan id = some env → plan.graph.nodes[id]? = none ∨ p.stale id env = true
  pass : q.toPass = { p.toPass with waiting := p.waiting.erase id }
  store : q.store = p.store ∨ q.store = p.arrived plan id

/-- All that a step can do. -/
theorem step_cases (hs : p.step plan = some q) :
    ∃ id, p.next? plan = some id ∧ (Passes plan p id q ∨ ∃ n env, Enters plan p id n env q) := by
  cases hnext : p.next? plan with
  | none =>
    rw [Moment.step_eq_none_iff.2 hnext] at hs
    contradiction
  | some id =>
    refine ⟨id, rfl, ?_⟩
    -- that the node is looked at changes nothing in what it would be entered with
    have hvisit := run_visit { p.toPass with waiting := p.waiting.erase id } plan id p.store
    have harriving : arriving { p.toPass with waiting := p.waiting.erase id } plan id =
        p.arriving plan id := rfl
    have hstale (env : Env) : stale { p.toPass with waiting := p.waiting.erase id } id env =
        p.stale id env := rfl
    rw [Moment.step, Pass.step.eq_def, hnext] at hs
    generalize hafter : (visit { p.toPass with waiting := p.waiting.erase id } plan id :
      InUniverse Pass).run p.store = after at hvisit
    obtain rfl : { toPass := after.1, store := after.2 } = q := by
      rw [← hafter]
      exact Option.some.inj hs
    cases hn : plan.graph.nodes[id]? with
    | none =>
      obtain rfl : after = _ := by simpa only [hn] using hvisit
      exact .inl ⟨fun _ _ => .inl hn, rfl, .inl rfl⟩
    | some n =>
      cases ha : (p.arriving plan id).run p.store with
      | mk found v =>
      have harrival : p.arrival plan id = found := congrArg Prod.fst ha
      have harrived : p.arrived plan id = v := congrArg Prod.snd ha
      simp only [hn, harriving, ha, hstale] at hvisit
      cases found with
      | none =>
        obtain rfl : after = _ := hvisit
        exact .inl ⟨fun env he => by simp [harrival] at he, rfl, .inr harrived.symm⟩
      | some env =>
        cases hst : p.stale id env with
        | true =>
          obtain rfl : after = _ := by simpa only [hst, if_true] using hvisit
          refine .inl ⟨fun env' he => .inr ?_, rfl, .inr harrived.symm⟩
          obtain rfl : env = env' := by simpa [harrival] using he
          exact hst
        | false =>
          obtain rfl : after = _ := by simpa only [hst, Bool.false_eq_true, if_false] using hvisit
          refine .inr ⟨n, env, hn, harrival, hst, ?_, ?_⟩
          · rw [Moment.outcome, harrived]
          · rw [Moment.left, harrived]

/-- A step enters the next node if there is something new to enter it with. -/
theorem Enters.step {n : Node} {env : Env} (he : Enters plan p id n env q) (hn : p.next? plan = some id) :
    p.step plan = some q := by
  cases hs : p.step plan with
  | none => simp [Moment.step_eq_none_iff.1 hs] at hn
  | some q' =>
    obtain ⟨id', hn', hpass | ⟨n', env', he'⟩⟩ := step_cases hs
    · obtain rfl : id = id' := by simpa [hn] using hn'
      rcases hpass.cause env he.arrives with hnone | hstale
      · simp [he.node] at hnone
      · simp [he.fresh] at hstale
    · obtain rfl : id = id' := by simpa [hn] using hn'
      obtain rfl : n = n' := by simpa [he.node] using he'.node
      obtain rfl : env = env' := by simpa [he.arrives] using he'.arrives
      have hpass : q'.toPass = q.toPass := he'.pass.trans he.pass.symm
      have hstore : q'.store = q.store := he'.store.trans he.store.symm
      obtain ⟨q, v⟩ := q
      obtain ⟨q', v'⟩ := q'
      obtain rfl : q' = q := hpass
      obtain rfl : v' = v := hstore
      rfl

/-- The next node is in the order, and waits. -/
theorem next?_some {p : Pass} (hn : p.next? plan = some id) :
    id ∈ plan.order ∧ p.waiting.contains id = true :=
  ⟨List.mem_of_find?_eq_some hn, List.find?_some hn⟩

/-- When no node is next, none of the order waits. -/
theorem next?_none {p : Pass} (hn : p.next? plan = none) (hid : id ∈ plan.order) :
    p.waiting.contains id = false := by
  simpa using List.find?_eq_none.1 hn id hid

/-! ## Runs -/

/-- The moments of a run. -/
inductive Reached (plan : Plan) (p : Moment) : Moment → Prop where
  | start : Reached plan p p
  | step {q q' : Moment} (hq : Reached plan p q) (hs : q.step plan = some q') : Reached plan p q'

theorem Reached.trans {q r : Moment} (hq : Reached plan p q) (hr : Reached plan q r) : Reached plan p r := by
  induction hr with
  | start => exact hq
  | step _ hs ih => exact ih.step hs

/-- A run ends in a moment of it in which no node is next. -/
theorem reached_of_run {fuel : Nat} (hr : p.run plan fuel = some q) :
    Reached plan p q ∧ q.next? plan = none := by
  induction fuel generalizing p with
  | zero =>
    rw [Moment.run_zero] at hr
    split at hr
    · rename_i hnone
      obtain rfl := Option.some.inj hr
      exact ⟨.start, by simpa using hnone⟩
    · simp at hr
  | succ fuel ih =>
    rw [Moment.run_succ] at hr
    cases hs : p.step plan with
    | none =>
      obtain rfl : p = q := by simpa [hs] using hr
      exact ⟨.start, Moment.step_eq_none_iff.1 hs⟩
    | some p' =>
      simp only [hs] at hr
      obtain ⟨hreached, hdone⟩ := ih hr
      exact ⟨Reached.trans (.step .start hs) hreached, hdone⟩

/-- A run that ends does so with more fuel, too. -/
theorem run_mono {n fuel : Nat} (hr : p.run plan n = some q) (hle : n ≤ fuel) :
    p.run plan fuel = some q := by
  induction n generalizing p fuel with
  | zero =>
    rw [Moment.run_zero] at hr
    split at hr
    · rename_i hnone
      cases fuel with
      | zero => rw [Moment.run_zero, if_pos hnone, hr]
      | succ fuel => rw [Moment.run_succ, Moment.step_eq_none_iff.2 (by simpa using hnone), hr]
    · simp at hr
  | succ n ih =>
    cases fuel with
    | zero => omega
    | succ fuel =>
      rw [Moment.run_succ] at hr ⊢
      cases hs : p.step plan with
      | none => simpa [hs] using hr
      | some p' =>
        simp only [hs] at hr ⊢
        exact ih hr (by omega)

end Pass
end FlowTyping.Graph
