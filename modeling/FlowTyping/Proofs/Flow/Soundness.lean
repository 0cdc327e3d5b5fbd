import FlowTyping.Proofs.Flow.Covered
import FlowTyping.Proofs.Flow.Tables
import FlowTyping.Proofs.Guard.Sides

/-!
# The result of a pass as a post-fixpoint

When a pass is done, what leaves an entered node on a live way should be within what its successor was
entered with. That holds everywhere but in two kinds of place. The entry is entered with the parameters,
whatever flows back into it. And a loop header past its limit takes the declared types of the variables
that still change, which need not cover what flows in: an argument that may be left out is declared
without `undefined`.

* **`Pass.Flows`** — an environment leaves an entered node on a live way.
* **`Pass.PostFixpoint`** — all that flows is within what it flows into, as the universe answers.
* **`Pass.postFixpoint_iff`** — the two kinds of place decide it.
* **`Pass.lossyLoop_drops_undefined`** — a loop that loses `undefined`.
-/

namespace FlowTyping

/-- An environment binds the variables of another, to types that the universe answers to be above theirs. -/
def Env.Below (u : Universe) (e e' : Env) : Prop :=
  ∀ x t, e.find? x = some t → ∃ t', e'.find? x = some t' ∧ u.Below t t'

namespace Graph.Pass

open Ty Universe

variable {h : Hierarchy} {g : Graph} {s : Surroundings} {plan : Plan} {u : Universe} {p q : Moment} {id : Nat}

/-! ## How a node was entered last -/

/-- A node was entered last from a moment of the pass that began in a universe, in an environment. -/
structure LastEntered (plan : Plan) (u : Universe) (p q : Moment) (id : Nat) (n : Node) (env : Env) :
    Prop where
  reached : Reached plan (.start plan.graph u) q
  next : q.next? plan = some id
  since : ∃ q', Enters plan q id n env q' ∧ Reached plan q' p ∧
    q'.visits.getD id 0 = p.visits.getD id 0

/-- An environment leaves an entered node on a live way to a successor: it is what came of entering
the node in the environment of the result, with the types that were declared at the time. -/
def Flows (plan : Plan) (u : Universe) (p : Moment) (succ : Nat) (out : Env) : Prop :=
  ∃ (id : Nat) (n : Node) (env : Env) (q : Moment) (slot : Nat),
    p.entered[id]? = some env ∧ LastEntered plan u p q id n env ∧ n.succs[slot]? = some succ ∧
      (q.outcome plan id n env).outs[slot]? = some (some out)

/-- A step enters a node once more, or leaves its environment and its edges alone. -/
theorem step_keeps (hs : p.step plan = some q) (id : Nat) :
    q.visits.getD id 0 = p.visits.getD id 0 + 1 ∨
      q.visits.getD id 0 = p.visits.getD id 0 ∧ q.entered[id]? = p.entered[id]? ∧
        ∀ k : Nat, q.edges[(id, k)]? = p.edges[(id, k)]? := by
  obtain ⟨id', -, hpass | ⟨n, env, he⟩⟩ := step_cases hs
  · rw [hpass.pass]
    exact .inr ⟨rfl, rfl, fun _ => rfl⟩
  · rw [he.pass, record_visits, record_entered]
    by_cases hid : id' = id
    · subst hid
      exact .inl (by rw [Std.HashMap.getD_insert_self])
    · refine .inr ⟨?_, ?_, fun k => ?_⟩
      · rw [Std.HashMap.getD_insert, if_neg (by simpa using hid)]
      · rw [Std.HashMap.getElem?_insert, if_neg (by simpa using hid)]
      · rw [record_edges, if_neg (by simp [Ne.symm hid])]

theorem Reached.visits_mono (hr : Reached plan p q) (id : Nat) :
    p.visits.getD id 0 ≤ q.visits.getD id 0 := by
  induction hr with
  | start => exact Nat.le_refl _
  | step _ hs ih =>
    rcases step_keeps hs id with hv | ⟨hv, -⟩
    · omega
    · omega

/-- A node that was not entered since has kept its environment and its edges. -/
theorem Reached.keeps (hr : Reached plan p q) (hv : p.visits.getD id 0 = q.visits.getD id 0) :
    q.entered[id]? = p.entered[id]? ∧ ∀ k : Nat, q.edges[(id, k)]? = p.edges[(id, k)]? := by
  induction hr with
  | start => exact ⟨rfl, fun _ => rfl⟩
  | step hq hs ih =>
    have hmono := hq.visits_mono id
    rcases step_keeps hs id with hnew | ⟨hold, hentered, hedges⟩
    · omega
    · obtain ⟨hentered', hedges'⟩ := ih (by omega)
      exact ⟨hentered.trans hentered', fun k => (hedges k).trans (hedges' k)⟩

/-- Every entered node was entered last from some moment. -/
theorem exists_lastEntered (hr : Reached plan (.start plan.graph u) p) {env : Env}
    (he : p.entered[id]? = some env) : ∃ n q, LastEntered plan u p q id n env := by
  induction hr with
  | start => simp [Moment.start, start] at he
  | step hq hs ih =>
    rename_i r r'
    rcases step_keeps hs id with hnew | ⟨hold, hentered, -⟩
    · obtain ⟨id', hnext, hpass | ⟨n, env', hent⟩⟩ := step_cases hs
      · rw [hpass.pass] at hnew
        simp at hnew
      · have hid : id' = id := by
          by_contra hne
          rw [hent.pass, record_visits, Std.HashMap.getD_insert, if_neg (by simpa using hne)] at hnew
          simp at hnew
        subst hid
        obtain rfl : env' = env := by
          rw [hent.pass, record_entered, Std.HashMap.getElem?_insert_self] at he
          exact Option.some.inj he
        exact ⟨n, r, hq, hnext, r', hent, .start, rfl⟩
    · obtain ⟨n, q, hreached, hnext, q', hent, hsince, hv⟩ := ih (hentered ▸ he)
      exact ⟨n, q, hreached, hnext, q', hent, hsince.step hs, hv.trans hold.symm⟩

/-- What flows stands on an edge out of a node of the order. -/
theorem Flows.edge {succ : Nat} {out : Env} (hf : Flows plan u p succ out) :
    ∃ (id k : Nat) (e : Env), id ∈ plan.order ∧ (plan.graph.succs id)[k]? = some succ ∧
      p.edges[(id, k)]? = some e ∧ e.same out = true := by
  obtain ⟨id, n, env, q, k, -, hlast, hsucc, hout⟩ := hf
  obtain ⟨q', hent, hsince, hv⟩ := hlast.since
  have hlt : k < n.succs.length := (List.getElem?_eq_some_iff.1 hsucc).1
  have hedge : p.edges[(id, k)]? = noted q.edges[(id, k)]? (some out) := by
    rw [(hsince.keeps hv).2 k, hent.pass, record_edges, if_pos ⟨rfl, hlt⟩, hout]
    rfl
  obtain ⟨e, hnoted, hsame⟩ := noted_some q.edges[(id, k)]? out
  refine ⟨id, k, e, (next?_some hlast.next).1, ?_, hedge.trans hnoted, hsame⟩
  rw [succs, hent.node]
  exact hsucc

/-! ## Post-fixpoints -/

/-- All that flows is within what it flows into. -/
def PostFixpoint (plan : Plan) (u : Universe) (p : Moment) : Prop :=
  ∀ succ out, Flows plan u p succ out → ∃ env, p.entered[succ]? = some env ∧ out.Below p.store env

/-- What flows back into the entry is within the parameters. -/
def EntryCovers (plan : Plan) (u : Universe) (p : Moment) : Prop :=
  ∀ out, Flows plan u p plan.graph.entry out →
    out.Below p.store ((entryEnv plan.graph.params {} : InUniverse Env).run p.store).1

/-- What flows into a widened variable of a loop header is within its declared type. -/
def DeclaredCovers (plan : Plan) (u : Universe) (p : Moment) : Prop :=
  ∀ succ out x t d, Flows plan u p succ out → out.find? x = some t →
    (p.entered[succ]?.bind fun env => env.find? x) = some d → WidenedTo plan u p succ x d →
    p.store.Below t d

/-- What flows binds entries. -/
theorem Flows.kept (hu : Kept h plan (.start plan.graph u)) {succ : Nat} {out : Env}
    (hf : Flows plan u p succ out) : out.KeptIn p.store := by
  obtain ⟨id, n, env, q, k, -, hlast, -, hout⟩ := hf
  obtain ⟨q', hent, hsince, -⟩ := hlast.since
  have hq := (hu.of_reached hlast.reached).1
  have hq' := (hq.step (hent.step hlast.next)).1
  exact ((hq.enters hent).2 out (List.mem_of_getElem? hout)).grows (hq'.of_reached hsince).2

/-- The entry was entered with the parameters, as the universe answers them now. -/
theorem Covering.entered_entry {plan : Plan} (hp : Covering h g plan u p) (hplan : plan.graph = g) {env : Env}
    (he : p.entered[g.entry]? = some env) : env = ((entryEnv g.params {} : InUniverse Env).run p.store).1 := by
  subst hplan
  obtain ⟨-, hgrows, hstands⟩ := yields_entryEnv hp.kept.keeps_params .empty p.store hp.kept.sound (.refl h _)
  exact (hp.entry_env env he).eq_of_stands hstands hgrows

/-- What flows is covered by what the successor was entered with, when nothing waits. -/
theorem Flows.covered {limit : Nat} (hg : g.Valid) (hu : Kept h (g.plan s limit) (.start g u))
    (hp : Covering h g (g.plan s limit) u p) (hdone : p.next? (g.plan s limit) = none) {succ : Nat} {out : Env}
    (hf : Flows (g.plan s limit) u p succ out) :
    ∃ env, p.entered[succ]? = some env ∧ (succ = g.entry ∨ Covers h (g.plan s limit) u p succ env out) := by
  obtain ⟨id, k, e, horder, hsucc, hedge, hsame⟩ := hf.edge
  have hmem : succ ∈ g.succs id := List.mem_of_getElem? hsucc
  have hidle := next?_none hdone (succ_mem_reversePostorder hg horder hmem)
  by_cases hentry : succ = g.entry
  · subst hentry
    cases hent : p.entered[g.entry]? with
    | none => simp [hp.entry_waits hent] at hidle
    | some env => exact ⟨env, rfl, .inl rfl⟩
  · obtain ⟨env, hent, hcovers⟩ := hp.covers succ hidle hentry e (mem_liveInto.2 ⟨id, k, hsucc, hedge⟩)
    refine ⟨env, hent, .inr fun x t hx => hcovers x t ?_⟩
    rw [(hp.kept.edge hedge).find?_eq_of_same (hf.kept hu) hsame x]
    exact hx

/-- An analysis with a result is a run with one. -/
theorem run_of_analyze {limits : Limits} {calledOff : Bool}
    (hrun : (g.analyze s limits calledOff : InUniverse (Except PassError Pass)).run u = (.ok p.toPass, p.store)) :
    (Moment.start g u).run (g.plan s limits.maxLoopVisits) stepAllowance = some p := by
  rw [analyze] at hrun
  split at hrun
  · cases hrun
  split at hrun
  · cases hrun
  rw [StateT.run_bind] at hrun
  rw [Moment.run, Moment.start]
  dsimp only at hrun ⊢
  rcases hr : (Pass.run (g.plan s limits.maxLoopVisits) stepAllowance (Pass.start g) :
    InUniverse (Option Pass)).run u with ⟨_ | q, v⟩
  · rw [hr] at hrun
    cases hrun
  · rw [hr] at hrun
    obtain ⟨hq, hv⟩ := Prod.mk.inj hrun
    rw [Moment.of?, Option.map_some, Except.ok.inj hq, hv]

/-- A run with a result is an analysis with one. -/
theorem analyze_of_run {limits : Limits} (hsize : limits.exceededBy g.size = false)
    (hrun : (Moment.start g u).run (g.plan s limits.maxLoopVisits) stepAllowance = some p) :
    (g.analyze s limits false : InUniverse (Except PassError Pass)).run u = (.ok p.toPass, p.store) := by
  rw [analyze, if_neg (by simp [hsize]), if_neg (by simp), StateT.run_bind]
  rw [Moment.run, Moment.start] at hrun
  dsimp only at hrun
  rcases hr : (Pass.run (g.plan s limits.maxLoopVisits) stepAllowance (Pass.start g) :
    InUniverse (Option Pass)).run u with ⟨_ | q, v⟩
  · rw [hr] at hrun
    cases hrun
  · rw [hr] at hrun
    obtain rfl := Option.some.inj hrun
    rfl

theorem reached_of_analyze {limits : Limits} {calledOff : Bool}
    (hrun : (g.analyze s limits calledOff : InUniverse (Except PassError Pass)).run u = (.ok p.toPass, p.store)) :
    Reached (g.plan s limits.maxLoopVisits) (.start g u) p ∧ p.next? (g.plan s limits.maxLoopVisits) = none :=
  reached_of_run (run_of_analyze hrun)

/-! ## A loop that loses a value -/

/-- The test `x === undefined`. -/
def leftOut : Guard := .equality .strictEq { var := "x" } (.type .undefined)

/-- `function f(x?: null) { if (x === undefined) { while (true) { x = null } } }` -/
def lossyLoop : Graph where
  name := "f"
  nodes := #[{ op := .entry, succs := [1] }, { op := .branch (some leftOut), succs := [2, 4] },
    { op := .merge, succs := [3] }, { op := .assign "x" (.const .null) false none, succs := [2] },
    { op := .exit, succs := [] }]
  entry := 0
  exit := 4
  params := [{ name := "x", type := .null, optional := true }]
  returns := none
  declared := { bindings := [("x", .null)] }

/-- The loop as it would be written down. -/
def lossyLoopSketch : Sketch where
  name := "f"
  nodes := [some { id := 0, draft := .op .entry, succs := [1] },
    some { id := 1, draft := .op (.branch (some leftOut)), succs := [2, 4] },
    some { id := 2, draft := .op .merge, succs := [3] },
    some { id := 3, draft := .op (.assign "x" (.const .null) false none), succs := [2] },
    some { id := 4, draft := .op .exit, succs := [] }]
  entry := 0
  exit := 4
  params := [{ name := "x", type := .null, optional := true }]
  returns := none
  declared := { bindings := [("x", .null)] }

theorem lossyLoop_order : lossyLoop.reversePostorder = [0, 1, 4, 2, 3] := by
  simp [reversePostorder, search, lossyLoop, size, succs]

theorem lossyLoop_headers : lossyLoop.loopHeaders = [2] := by
  have hsize : List.range lossyLoop.size = [0, 1, 2, 3, 4] := rfl
  have h0 : lossyLoop.succs 0 = [1] := rfl
  have h1 : lossyLoop.succs 1 = [2, 4] := rfl
  have h2 : lossyLoop.succs 2 = [3] := rfl
  have h3 : lossyLoop.succs 3 = [2] := rfl
  have h4 : lossyLoop.succs 4 = [] := rfl
  simp [loopHeaders, lossyLoop_order, positions, Std.HashMap.getD_insert, hsize, h0, h1, h2, h3, h4]

theorem plan_lossyLoop (limit : Nat) :
    lossyLoop.plan {} limit = { graph := lossyLoop, surroundings := {}, order := [0, 1, 4, 2, 3],
                                headers := [2], maxLoopVisits := limit } := by
  rw [Graph.plan, lossyLoop_order, lossyLoop_headers]

/-- What `x` may be. -/
def nullable : Ty := .union [.null, .undefined]

/-- `x` as the function is called with it. -/
def given : Env := { bindings := [("x", nullable)] }

/-- `x` where it was left out. -/
def omitted : Env := { bindings := [("x", .undefined)] }

/-- `x` as it is assigned in the loop. -/
def assigned : Env := { bindings := [("x", .null)] }

/-- `x` where the loop is entered again. -/
def again (limit : Nat) : Env := if limit ≤ 1 then assigned else given

/-- A universe answers a union of atoms with that union. -/
theorem yields_union_atoms {ts ms : List Ty} (hts : ∀ t ∈ ts, t ∈ atoms) (hms : ∀ m ∈ ms, m ∈ atoms)
    (hunion : h.union ts = .union ms) :
    u.Yields h (TypeStore.union ts) fun v r => r = .union ms ∧ v.Keeps (.union ms) := by
  refine .of_sound fun v hv _ => (yields_union (hv.stands_all fun t ht => hv.atom (hts t ht))).imp ?_
  intro w r hw _ hr
  rw [hunion] at hr
  obtain ⟨ns, rfl, hrel⟩ := (hw.mirroring.mirrors hr).flip.union_inv
  have hatoms : List.Forall₂ Eq ms ns := forall₂_imp_of_mem hrel fun m hm n _ hstands =>
    (eq_of_key_eq_atom (hms m hm) (hw.key_eq hstands.lookup?)).symm
  obtain rfl : ms = ns := by rwa [List.forall₂_eq_eq_eq] at hatoms
  exact ⟨rfl, hw.keeps_of_stands hr⟩

theorem union_null_undefined (h : Hierarchy) :
    h.union [.null, .undefined] = nullable ∧ h.union [.undefined, .null] = nullable := by
  have hle : Ty.null.key ≤ Ty.undefined.key := by with_unfolding_all decide
  have hnle : ¬ Ty.undefined.key ≤ Ty.null.key := by with_unfolding_all decide
  constructor
  · show Ty.union (sortByKey [.null, .undefined]) = _
    rw [sortByKey_pair, if_pos hle, nullable]
  · show Ty.union (sortByKey [.undefined, .null]) = _
    rw [sortByKey_pair, if_neg hnle, nullable]

/-- The function is entered with what `x` may be. -/
theorem yields_entryEnv_lossyLoop : u.Yields h (entryEnv lossyLoop.params {}) fun v e =>
    e = given ∧ v.Keeps nullable := by
  show u.Yields h (TypeStore.union [.null, .undefined] >>= fun t => pure (({} : Env).bind "x" t)) _
  refine (yields_union_atoms (by simp [atoms]) (by simp [atoms]) (union_null_undefined h).1).bind ?_
  rintro v _ - - ⟨rfl, hkeeps⟩
  exact .pure fun _ _ hvw => ⟨rfl, hvw.keeps hkeeps⟩

/-- The test tells apart whether `x` was left out. -/
theorem yields_leftOut (hu : u.Keeps nullable) (declared : Env) :
    u.Yields h (transfer {} none declared (.branch (some leftOut)) given) fun _ o =>
      o.outs = [some omitted, some assigned] ∧ o.declared = declared := by
  have hmeet : h.meet nullable .undefined = .undefined := rfl
  have hwithout : (Guard.without nullable .undefined : Ideal h Ty).run = .null := rfl
  have hyes : h.subtype .undefined nullable = true := rfl
  have hno : h.subtype .null nullable = true := rfl
  have hsides : (Guard.splitEquality .strictEq none .undefined nullable : Ideal h Split).run =
      { yes := .undefined, no := .null } := by
    rw [Guard.run_splitEquality]
    simp [EqOp.negated, Guard.comparisonSides, Guard.looseRight, EqOp.loose, hmeet, hwithout]
  have hwithin : (Guard.withinInput nullable { yes := .undefined, no := .null } : Ideal h Split).run =
      { yes := .undefined, no := .null } := by
    simp only [Guard.withinInput, Ideal.run_bind, Ideal.run_subtype, hyes, hno, Ideal.run_pure, if_true]
  have hsplit : (leftOut.split [] (some given.find?) nullable : InUniverse Split) =
      Guard.splitEquality .strictEq none .undefined nullable := by
    rw [leftOut, Guard.split, Guard.comparandType]
  have hcurrent : (given.find? leftOut.target).getD (unbound declared leftOut.target) = nullable := rfl
  refine .of_sound fun v hv huv => ?_
  have hgiven := hv.stands (huv.keeps hu)
  have hnarrow : v.YieldsSplit h (leftOut.narrow [] (some given.find?) nullable)
      { yes := .undefined, no := .null } := by
    rw [Guard.narrow, hsplit]
    refine (yields_splitEquality .strictEq none hgiven (stands_atom hv (by simp [atoms]))).bind ?_
    intro w made _ hvw hmade
    rw [hsides] at hmade
    rw [← hwithin]
    exact yields_withinInput (hgiven.grows hvw) hmade
  have hyes : narrowed given leftOut.target .undefined = some omitted := rfl
  have hno : narrowed given leftOut.target .null = some assigned := rfl
  have hbranch := yields_branch {} none hcurrent hnarrow (by simp [atoms]) (by simp [atoms])
  simp only [hyes, hno] at hbranch
  exact hbranch

/-- A variable that is declared as `null` takes it. -/
theorem yields_assign_null (s : Surroundings) (returns : Option Ty) {declared : Env} (env : Env) {x : String}
    {declare : Bool} {ascribed : Option Ty} (hd : declared.find? x = some .null)
    (hwritten : (declare && ascribed.isNone) = false) :
    u.Yields h (transfer s returns declared (.assign x (.const .null) declare ascribed) env) fun _ o =>
      o.outs = [some (env.bind x .null)] ∧ o.declared = declared := by
  have hmeet : h.meet .null .null = .null :=
    Hierarchy.intersect_single (Hierarchy.conjunctsAll_pair rfl rfl) rfl rfl
  have hassign : u.Yields h (assign declared env x .null false) fun _ r =>
      r.1 = env.bind x .null ∧ r.2.1 = declared := by
    refine .of_sound fun v hv _ => ?_
    have hnull : v.Stands .null .null := stands_atom hv (by simp [atoms])
    rw [assign, if_neg (by simp), pure_bind]
    dsimp only
    rw [hd]
    dsimp only
    rw [subtype_self_eq, pure_bind, if_pos rfl]
    refine (yields_meet hnull hnull).bind fun w t hw _ ht => .pure fun _ _ _ => ?_
    rw [hmeet] at ht
    rw [eq_of_key_eq_atom (by simp [atoms]) (hw.key_eq ht.lookup?)]
    exact ⟨rfl, rfl⟩
  rw [transfer, valueType, pure_bind, hwritten]
  exact hassign.bind fun _ _ _ _ hr => .pure fun _ _ _ => ⟨by rw [hr.1], hr.2⟩

/-- Both edges into the loop together bring what `x` was given; past the limit that is not kept. -/
theorem yields_again (late : Bool) :
    u.Yields h (do
      let all ← Env.joinAll [omitted, assigned] (unbound lossyLoop.declared)
      return some ({ bindings := ← widenBindings lossyLoop.declared omitted late all.bindings } : Env))
      fun _ found => found = some (if late then assigned else given) := by
  have hjoin : u.Yields h (Env.joinAll [omitted, assigned] (unbound lossyLoop.declared)) fun v e =>
      e = given ∧ v.Keeps nullable := by
    have hnames : (Env.ofList ([omitted, assigned].flatMap (·.bindings))).names = ["x"] := rfl
    have htypes : [omitted, assigned].map (fun e => (e.find? "x").getD (unbound lossyLoop.declared "x")) =
        [.undefined, .null] := rfl
    rw [Env.joinAll.eq_def]
    simp only [hnames, Env.joinNames, htypes, bind_assoc, pure_bind]
    refine (yields_union_atoms (by simp [atoms]) (by simp [atoms]) (union_null_undefined h).2).bind ?_
    rintro v _ - - ⟨rfl, hkeeps⟩
    exact .pure fun _ _ hvw => ⟨rfl, hvw.keeps hkeeps⟩
  refine hjoin.bind ?_
  rintro v _ hv - ⟨rfl, hkeeps⟩
  have hgiven : ∀ b ∈ given.bindings, v.Keeps b.2 := by
    simpa [given] using hkeeps
  have homitted (x : String) (t : Ty) (hx : omitted.find? x = some t) : v.Keeps t := by
    obtain rfl : t = .undefined := by simpa [omitted, Env.types] using Env.mem_types_of_find? hx
    exact hv.atom (by simp [atoms])
  refine Says.bind (says_widenBindings hgiven homitted) (.pure fun _ _ _ => ?_)
  cases late <;> rfl

/-- The states of a pass over the loop. -/
def lossyStage (limit : Nat) : Nat → Table
  | 0 => Table.start lossyLoop
  | n + 1 =>
    let T := lossyStage limit n
    match n with
    | 0 => T.entering 0 given 1 [((0, 0), given)] [1]
    | 1 => T.entering 1 given 1 [((1, 1), assigned), ((1, 0), omitted)] [4, 2]
    | 2 => T.entering 4 assigned 1 [] [2]
    | 3 => T.entering 2 omitted 1 [((2, 0), omitted)] [3]
    | 4 => T.entering 3 omitted 1 [((3, 0), assigned)] [2]
    | 5 => T.entering 2 (again limit) 2 [((2, 0), again limit)] [3]
    | _ => T.entering 3 (again limit) 2 [] []

theorem says_lossyLoop (u : Universe) (limit : Nat) :
    u.Says h (Table.run (lossyLoop.plan {} limit) 7 (lossyStage limit 0)) (some (lossyStage limit 7)) := by
  have hagain : again limit = given ∨ again limit = assigned := by
    rw [again]
    split
    · exact .inr rfl
    · exact .inl rfl
  have hstale : omitted.same (again limit) = false := by
    rcases hagain with ha | ha <;> rw [ha] <;> rfl
  rw [plan_lossyLoop]
  -- from where the function is entered, what `x` may be is an entry
  refine Table.says_run_enter_of (P := fun v => v.Keeps nullable) 0 given [some given] (lossyStage limit 1)
    rfl rfl ?_ rfl (fun _ _ _ => .pure fun _ _ _ => ⟨rfl, rfl⟩) rfl fun v _ hgiven => ?_
  · rw [Table.arriving_entry]
    · exact yields_entryEnv_lossyLoop.bind fun _ _ _ _ henv => .pure fun _ _ hvw =>
        ⟨congrArg some henv.1, hvw.keeps henv.2⟩
    · rfl
    · rfl
  refine Table.says_run_enter 1 given _ (lossyStage limit 2) rfl rfl (Says.pure h v _) rfl
    (yields_leftOut hgiven _) rfl ?_
  refine Table.says_run_enter 4 assigned [] (lossyStage limit 3) rfl rfl (Says.pure h v _) rfl
    (.pure fun _ _ _ => ⟨rfl, rfl⟩) rfl ?_
  refine Table.says_run_enter 2 omitted [some omitted] (lossyStage limit 4) rfl rfl (Says.pure h v _) rfl
    (.pure fun _ _ _ => ⟨rfl, rfl⟩) rfl ?_
  refine Table.says_run_enter 3 omitted [some assigned] (lossyStage limit 5) rfl rfl (Says.pure h v _) rfl
    (yields_assign_null _ _ _ rfl rfl) rfl ?_
  refine Table.says_run_enter 2 (again limit) [some (again limit)] (lossyStage limit 6) rfl rfl ?_ hstale
    (.pure fun _ _ _ => ⟨rfl, rfl⟩) ?_ ?_
  · refine Table.says_arriving_header [omitted, assigned] 1 (show 2 ≠ 0 by decide) (by simp) rfl rfl rfl rfl ?_
    exact (yields_again (decide (limit ≤ 1))).imp fun _ _ _ _ hfound => by simpa [again] using hfound
  · show (if omitted.same (again limit) then _ else _) = _
    rw [hstale]
    rfl
  have hassigned : (again limit).bind "x" .null = assigned := by
    rcases hagain with ha | ha <;> rw [ha] <;> rfl
  refine Table.says_run_enter 3 (again limit) [some ((again limit).bind "x" .null)] (lossyStage limit 7) rfl rfl
    (Says.pure h v _) hstale (yields_assign_null _ _ _ rfl rfl) ?_ ?_
  · rw [hassigned]
    rfl
  have hdone : (lossyStage limit 7).next? { graph := lossyLoop, surroundings := {}, order := [0, 1, 4, 2, 3],
                                            headers := [2], maxLoopVisits := limit } = none := rfl
  rw [Table.run, hdone]
  exact Says.pure h v _

/-- A pass over the loop is done after seven steps. -/
theorem analyze_lossyLoop (hu : u.Sound h) (limit : Nat) :
    ∃ p : Moment, (lossyLoop.analyze {} { maxLoopVisits := limit } false :
        InUniverse (Except PassError Pass)).run u = (.ok p.toPass, p.store) ∧
      (lossyStage limit 7).Shows p.toPass := by
  have hend : ((Table.run (lossyLoop.plan {} limit) 7 (lossyStage limit 0)).run u).1 = some (lossyStage limit 7) :=
    (says_lossyLoop u limit u hu (.refl h u)).2.2
  obtain ⟨p, hrun, hshows, -⟩ := Table.Shows.run (.start lossyLoop)
    (Prod.ext hend rfl : (Table.run (lossyLoop.plan {} limit) 7 (lossyStage limit 0)).run u = (_, _))
  exact ⟨p, analyze_of_run (by simp [Limits.exceededBy]) (run_mono hrun (by decide)), hshows⟩

/-- What was left out flows into the loop. -/
theorem flows_lossyLoop {limit : Nat} (hu : Kept h (lossyLoop.plan {} limit) (.start lossyLoop u)) {p : Moment}
    (hrun : (lossyLoop.analyze {} { maxLoopVisits := limit } false :
        InUniverse (Except PassError Pass)).run u = (.ok p.toPass, p.store))
    (hp : (lossyStage limit 7).Shows p.toPass) : Flows (lossyLoop.plan {} limit) u p 2 omitted := by
  have hentered : p.entered[1]? = some given := hp.entered 1
  obtain ⟨n, q, hlast⟩ := exists_lastEntered (reached_of_analyze hrun).1 hentered
  obtain ⟨q', hent, -⟩ := hlast.since
  obtain rfl : { op := .branch (some leftOut), succs := [2, 4] } = n := by
    simpa [Graph.plan, lossyLoop] using hent.node
  have hq := (hu.of_reached hlast.reached).1
  obtain ⟨hsound, -, hkept⟩ := hq.arrival 1
  have hnullable : (q.arrived (lossyLoop.plan {} limit) 1).Keeps nullable :=
    (hkept given hent.arrives).find? (show given.find? "x" = _ from rfl)
  have houts : (q.outcome (lossyLoop.plan {} limit) 1 { op := .branch (some leftOut), succs := [2, 4] } given).outs =
      [some omitted, some assigned] := by
    obtain ⟨-, -, houts, -⟩ := yields_leftOut hnullable q.declared _ hsound (.refl h _)
    have hsurroundings : (lossyLoop.plan {} limit).surroundings = {} := rfl
    have hreturns : (lossyLoop.plan {} limit).graph.returns = none := rfl
    rw [Moment.outcome, hsurroundings, hreturns]
    dsimp only
    exact houts
  refine ⟨1, _, given, q, 0, hentered, hlast, rfl, ?_⟩
  rw [houts]
  rfl

theorem not_below_assigned (hu : u.Sound h) : ¬ omitted.Below u assigned := by
  intro hb
  obtain ⟨t, ht, hbelow⟩ := hb "x" .undefined rfl
  obtain rfl : Ty.null = t := Option.some.inj ht
  rw [hu.below_iff (hu.atom (by simp [atoms])) (hu.atom (by simp [atoms]))] at hbelow
  have hfalse : h.subtype .undefined .null = false := rfl
  simp [hfalse] at hbelow

/-! ## The result of a pass -/

/-- **When a pass is done, every live way leads to an entered node, and the result is a post-fixpoint
exactly if what flows into the entry is within the parameters and what flows into a widened variable is
within its declared type.** That holds in every universe that comes of a new one by calls, declarations and
passes and keeps the types of the graph, as the universe answers that the pass leaves. -/
theorem postFixpoint_iff (sketch : Sketch) (g : Graph) (s : Surroundings) (limits : Limits) (calledOff : Bool)
    (u : Universe) (hu : u.History) (hcheck : sketch.check = .ok g) (htypes : ∀ t ∈ g.types ++ s.types, u.Keeps t)
    (p : Moment)
    (hrun : (g.analyze s limits calledOff : InUniverse (Except PassError Pass)).run u = (.ok p.toPass, p.store)) :
    (∀ (id : Nat) (env : Env), p.entered[id]? = some env →
      ∃ n q, LastEntered (g.plan s limits.maxLoopVisits) u p q id n env) ∧
    (∀ succ out, Flows (g.plan s limits.maxLoopVisits) u p succ out → ∃ env, p.entered[succ]? = some env) ∧
    (PostFixpoint (g.plan s limits.maxLoopVisits) u p ↔
      EntryCovers (g.plan s limits.maxLoopVisits) u p ∧ DeclaredCovers (g.plan s limits.maxLoopVisits) u p) := by
  obtain ⟨hsound, hproper⟩ := hu.sound
  obtain ⟨hr, hdone⟩ := reached_of_analyze hrun
  have hg := Sketch.check_valid hcheck
  have hstart : Kept u.classes (g.plan s limits.maxLoopVisits) (.start g u) := kept_start hsound hproper htypes
  have hp := covering_of_reached hg hstart hr
  refine ⟨fun id env he => exists_lastEntered hr he, fun succ out hf => ?_, fun hfix => ⟨?_, ?_⟩, ?_⟩
  · obtain ⟨env, hent, -⟩ := hf.covered hg hstart hp hdone
    exact ⟨env, hent⟩
  · intro out hf
    -- nothing is joined or widened at the entry, so it was entered with the environment of the start
    obtain ⟨env, hent, hbelow⟩ := hfix g.entry out hf
    rwa [hp.entered_entry rfl hent] at hbelow
  · intro succ out x t d hf hx hd _
    obtain ⟨env, hent, hbelow⟩ := hfix succ out hf
    obtain ⟨t', ht', hwithin⟩ := hbelow x t hx
    obtain rfl : t' = d := by simpa [hent, ht'] using hd
    exact hwithin
  · rintro ⟨hentry, hdeclared⟩ succ out hf
    obtain ⟨env, hent, rfl | hcovers⟩ := hf.covered hg hstart hp hdone
    · exact ⟨env, hent, hp.entered_entry rfl hent ▸ hentry out hf⟩
    · refine ⟨env, hent, fun x t hx => ?_⟩
      -- either the join covers `x`, or `x` was widened past the limit to the type it is declared with
      obtain ⟨t', ht', hwithin | hwidened⟩ := hcovers x t hx
      · have hkept := (hp.kept.entered hent).find? ht'
        exact ⟨t', ht', (hp.kept.sound.below_iff ((hf.kept hstart).find? hx) hkept).2 hwithin⟩
      · exact ⟨t', ht', hdeclared succ out x t t' hf hx (by simp [hent, ht']) hwidened⟩

theorem keeps_lossyLoop (hu : u.Sound h) : ∀ t ∈ lossyLoop.types ++ Surroundings.types {}, u.Keeps t := by
  have htypes : lossyLoop.types ++ Surroundings.types {} = [.null, .null, .undefined, .null] := rfl
  intro t ht
  rw [htypes] at ht
  have hatom : t = .null ∨ t = .undefined ∨ t = .null := by simpa using ht
  rcases hatom with rfl | rfl | rfl <;> exact hu.atom (by simp [atoms])

/-- Before its limit the loop keeps all that flows into it. -/
theorem lossyLoop_postFixpoint :
    ∃ p : Moment, (lossyLoop.analyze {} { maxLoopVisits := 3 } false :
        InUniverse (Except PassError Pass)).run (.new 0) = (.ok p.toPass, p.store) ∧
      PostFixpoint (lossyLoop.plan {} 3) (.new 0) p := by
  have hu : (Universe.new 0).History := .new 0
  obtain ⟨p, hrun, hp⟩ := analyze_lossyLoop hu.sound.1 3
  refine ⟨p, hrun, (postFixpoint_iff lossyLoopSketch lossyLoop {} { maxLoopVisits := 3 } false (.new 0) hu rfl
    (keeps_lossyLoop hu.sound.1) p hrun).2.2.2 ⟨?_, ?_⟩⟩
  · -- no way leads back to the entry
    intro out hf
    obtain ⟨id, k, e, horder, hsucc, -⟩ := hf.edge
    have hmem : 0 ∈ lossyLoop.succs id := List.mem_of_getElem? hsucc
    rw [plan_lossyLoop] at horder
    have hnone : ∀ id ∈ [0, 1, 4, 2, 3], 0 ∉ lossyLoop.succs id := by decide
    exact absurd hmem (hnone id horder)
  · -- the only loop header has two visits
    rintro succ out x t d - - - ⟨hheader, hlimit, -⟩
    rw [plan_lossyLoop] at hheader
    obtain rfl : succ = 2 := List.mem_singleton.1 hheader
    have hvisits : p.visits.getD 2 0 = 2 := hp.visits 2
    rw [hvisits] at hlimit
    exact absurd hlimit (by decide)

/-- **Past its limit the loop loses a value that flows into it**: `x` is `undefined` on the way into the
loop, and the loop was entered with `x` as `null`. -/
theorem lossyLoop_drops_undefined :
    lossyLoopSketch.check = .ok lossyLoop ∧
      ∃ p : Moment, (lossyLoop.analyze {} { maxLoopVisits := 1 } false :
          InUniverse (Except PassError Pass)).run (.new 0) = (.ok p.toPass, p.store) ∧
        Flows (lossyLoop.plan {} 1) (.new 0) p 2 omitted ∧ p.entered[2]? = some assigned ∧
        ¬ PostFixpoint (lossyLoop.plan {} 1) (.new 0) p := by
  have hu : (Universe.new 0).History := .new 0
  obtain ⟨hsound, hproper⟩ := hu.sound
  obtain ⟨p, hrun, hp⟩ := analyze_lossyLoop hsound 1
  have hstart : Kept _ (lossyLoop.plan {} 1) (.start lossyLoop (.new 0)) :=
    kept_start hsound hproper (keeps_lossyLoop hsound)
  have hflows := flows_lossyLoop hstart hrun hp
  have hentered : p.entered[2]? = some assigned := hp.entered 2
  refine ⟨rfl, p, hrun, hflows, hentered, fun hfix => ?_⟩
  obtain ⟨env, henv, hbelow⟩ := hfix 2 omitted hflows
  obtain rfl : assigned = env := by simpa [hentered] using henv
  exact not_below_assigned (hstart.of_reached (reached_of_analyze hrun).1).1.sound hbelow

end Graph.Pass
end FlowTyping
