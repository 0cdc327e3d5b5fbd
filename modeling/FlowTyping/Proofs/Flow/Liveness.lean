import FlowTyping.Proofs.Flow.Settling
import FlowTyping.Proofs.Flow.Soundness

/-!
# Live edges and reached nodes

The result of a pass reports the nodes that were entered. An edge is live as long as its source was last
entered in an environment that leaves the slot, so an edge that was live can die when its source is entered
again. A node whose last live edge died stays in the result: it is looked at once more, and nothing comes of
that.

* **`Pass.flows_iff_liveInto`** — the live edges are those on which something flows.
* **`Pass.Attends`** — the entry and every node with a live edge into it wait or were entered.
* **`Pass.CutOff`** — a node that was entered and then lost its last live edge.
* **`Pass.exact_iff_not_cutOff`** — such nodes are all that the result reports wrongly.
* **`Pass.stranded_stays_reached`** — a body with such a node.
-/

namespace FlowTyping.Graph.Pass

open Ty Universe

variable {h : Hierarchy} {g : Graph} {s : Surroundings} {plan : Plan} {u : Universe} {p q r : Moment} {id : Nat}
  {env : Env}

/-! ## What stands on an edge -/

/-- Every live edge leaves a node that was entered. -/
theorem Reached.edge_entered (hr : Reached plan (.start plan.graph u) p) {k : Nat} {e : Env}
    (he : p.edges[(id, k)]? = some e) : ∃ env, p.entered[id]? = some env := by
  induction hr with
  | start => simp [Moment.start, Pass.start] at he
  | step hq hs ih =>
    obtain ⟨id', -, hpass | ⟨n, env, hent⟩⟩ := step_cases hs
    · rw [hpass.pass] at he ⊢
      exact ih he
    · rw [hent.pass, record_entered, Std.HashMap.getElem?_insert]
      by_cases hid : id' = id
      · exact ⟨env, if_pos (by simpa using hid)⟩
      · rw [hent.pass, record_edges, if_neg (by simp [Ne.symm hid])] at he
        rw [if_neg (by simpa using hid)]
        exact ih he

/-- An edge holds what left its slot when its source was entered last, up to the trees of the types. -/
theorem LastEntered.edge {n : Node} (hl : LastEntered plan u p q id n env) {k : Nat}
    (hk : k < n.succs.length) :
    p.edges[(id, k)]? = noted q.edges[(id, k)]?
      ((q.outcome plan id n env).outs[k]?.getD none) := by
  obtain ⟨q', hent, hsince, hv⟩ := hl.since
  rw [(hsince.keeps hv).2 k, hent.pass, record_edges, if_pos ⟨rfl, hk⟩]

/-- Something flows into a node exactly if an edge into it is live. -/
theorem flows_iff_liveInto (hr : Reached plan (.start plan.graph u) p) :
    (∃ out, Flows plan u p id out) ↔ p.liveInto plan.graph id ≠ [] := by
  constructor
  · rintro ⟨out, hf⟩ hnil
    obtain ⟨n, k, e, -, hsucc, hedge, -⟩ := hf.edge
    have hlive : e ∈ p.liveInto plan.graph id := mem_liveInto.2 ⟨n, k, hsucc, hedge⟩
    simp [hnil] at hlive
  · intro hne
    obtain ⟨e, he⟩ := List.exists_mem_of_ne_nil _ hne
    obtain ⟨n, k, hsucc, hedge⟩ := mem_liveInto.1 he
    obtain ⟨env, henv⟩ := hr.edge_entered hedge
    obtain ⟨node, q, hlast⟩ := exists_lastEntered hr henv
    have hnode : plan.graph.nodes[n]? = some node := hlast.since.choose_spec.1.node
    have hslot : node.succs[k]? = some id := by simpa [succs, hnode] using hsucc
    have hk : k < node.succs.length := (List.getElem?_eq_some_iff.1 hslot).1
    -- a dead slot would have left a dead edge
    cases hout : (q.outcome plan n node env).outs[k]? with
    | none => simp [hlast.edge hk, hout, noted] at hedge
    | some out =>
      cases out with
      | none => simp [hlast.edge hk, hout, noted] at hedge
      | some out => exact ⟨out, n, node, env, q, k, henv, hlast, hslot, hout⟩

/-! ## Looking after live edges -/

/-- A node would be entered unless no edge into it is live. -/
theorem arrival_eq_none_iff :
    p.arrival plan id = none ↔ id ≠ plan.graph.entry ∧ p.liveInto plan.graph id = [] := by
  constructor
  · contrapose
    intro hdue
    have hincoming : Always (p.incoming plan.graph id) fun found => found ≠ none := by
      rw [incoming.eq_def]
      split
      · exact .of_all fun _ => .pure (by simp)
      · rename_i hid
        cases hlive : p.liveInto plan.graph id with
        | nil => exact absurd ⟨hid, hlive⟩ hdue
        | cons e es => exact .of_all fun _ => .pure (by simp)
    have harriving : Always (p.arriving plan id) fun found => found ≠ none := by
      refine hincoming.bind fun found hfound => ?_
      cases found with
      | none => exact absurd rfl hfound
      | some env =>
        dsimp only
        split
        · exact .ite (.of_all fun _ => .pure (by simp)) (.pure (by simp))
        · exact .pure (by simp)
    exact harriving p.store
  · rintro ⟨hid, hlive⟩
    rw [Moment.arrival, arriving, incoming.eq_def, if_neg hid, hlive]
    rfl

/-- The entry and every node with a live edge into it wait to be looked at, or were entered. -/
def Attends (g : Graph) (p : Pass) : Prop :=
  ∀ id, id = g.entry ∨ p.liveInto g id ≠ [] →
    p.waiting.contains id = true ∨ (p.entered[id]?).isSome = true

theorem Passes.attends (hg : plan.graph.Valid) (hp : p.Attends plan.graph) (hpass : Passes plan p id q) :
    q.Attends plan.graph := by
  intro id' hdue
  rw [hpass.pass] at hdue ⊢
  have hdue : id' = plan.graph.entry ∨ p.liveInto plan.graph id' ≠ [] := hdue
  by_cases hid : id = id'
  · subst hid
    obtain ⟨env, harrives⟩ : ∃ env, p.arrival plan id = some env := by
      apply Option.ne_none_iff_exists'.1
      rw [Ne, arrival_eq_none_iff]
      tauto
    have hnode : plan.graph.nodes[id]? ≠ none := by
      rcases hdue with rfl | hlive
      · exact fun hnone => absurd hg.entry_lt (Nat.not_lt.2 (Array.getElem?_eq_none_iff.1 hnone))
      · obtain ⟨e, hmem⟩ := List.exists_mem_of_ne_nil _ hlive
        exact node_of_mem_liveInto hg hmem
    -- so it was passed over because nothing was new
    have hstale := (hpass.cause env harrives).resolve_left hnode
    unfold stale at hstale
    cases hold : p.entered[id]? with
    | none => simp [hold] at hstale
    | some old => exact .inr (by simp)
  · refine (hp id' hdue).imp_left fun hw => ?_
    simpa [Std.HashSet.contains_erase, hid] using hw

theorem Enters.attends {n : Node} (hp : p.Attends plan.graph) (he : Enters plan p id n env q) :
    q.Attends plan.graph := by
  intro id' hdue
  by_cases hid : id = id'
  · refine .inr ?_
    rw [he.pass, record_entered, Std.HashMap.getElem?_insert, if_pos (by simpa using hid)]
    rfl
  · cases hw : q.waiting.contains id' with
    | true => exact .inl rfl
    | false =>
      -- no edge into the node has changed, so it was due before
      have hbefore : id' = plan.graph.entry ∨ p.liveInto plan.graph id' ≠ [] := by
        refine hdue.imp_right fun hlive => ?_
        obtain ⟨e, hmem⟩ := List.exists_mem_of_ne_nil _ hlive
        exact List.ne_nil_of_mem (he.mem_liveInto hw hmem)
      rcases hp id' hbefore with hwait | hentered
      · rw [he.pass, record_waiting_mono _ _ _ _ _ (by
          simpa [Std.HashSet.contains_erase, hid] using hwait)] at hw
        contradiction
      · refine .inr ?_
        rwa [he.pass, record_entered, Std.HashMap.getElem?_insert, if_neg (by simpa using hid)]

theorem Reached.attends (hg : plan.graph.Valid) (hr : Reached plan (.start plan.graph u) p) :
    p.Attends plan.graph := by
  induction hr with
  | start =>
    rintro id (rfl | hlive)
    · exact .inl (by simp [Moment.start, Pass.start])
    · obtain ⟨e, he⟩ := List.exists_mem_of_ne_nil _ hlive
      obtain ⟨n, k, -, hedge⟩ := mem_liveInto.1 he
      simp [Moment.start, Pass.start] at hedge
  | step _ hs ih =>
    obtain ⟨id, -, hpass | ⟨n, env, he⟩⟩ := step_cases hs
    · exact hpass.attends hg ih
    · exact he.attends ih

/-- When nothing waits, every node with a live edge into it was entered. -/
theorem Flows.entered (hg : g.Valid) {limit : Nat} (hr : Reached (g.plan s limit) (.start g u) p)
    (hdone : p.next? (g.plan s limit) = none) {out : Env} (hf : Flows (g.plan s limit) u p id out) :
    (p.entered[id]?).isSome = true := by
  obtain ⟨n, k, e, horder, hsucc, -⟩ := hf.edge
  have hidle : p.waiting.contains id = false :=
    next?_none hdone (succ_mem_reversePostorder hg horder (List.mem_of_getElem? hsucc))
  have hlive := (flows_iff_liveInto hr).1 ⟨out, hf⟩
  rcases hr.attends hg id (.inr hlive) with hw | hentered
  · simp [hidle] at hw
  · exact hentered

/-! ## Nodes that were cut off -/

/-- Within a number of steps a node was entered, then the last live edge into it went, and none has come
since. -/
def CutOff (plan : Plan) (u : Universe) (n id : Nat) : Prop :=
  ∃ k < n, ∃ q, after plan (.start plan.graph u) k = some q ∧ (q.entered[id]?).isSome = true ∧
    q.liveInto plan.graph id ≠ [] ∧
    ∀ m r, k < m → m ≤ n → after plan (.start plan.graph u) m = some r → r.liveInto plan.graph id = []

theorem reached_of_after {n : Nat} (hn : after plan p n = some q) : Reached plan p q := by
  induction n generalizing q with
  | zero =>
    obtain rfl : p = q := Option.some.inj hn
    exact .start
  | succ n ih =>
    obtain ⟨r, hr, hs⟩ := Option.bind_eq_some_iff.1 hn
    exact (ih hr).step hs

/-- Every moment of a run comes after a number of steps. -/
theorem Reached.after (hr : Reached plan p q) : ∃ n, Pass.after plan p n = some q := by
  induction hr with
  | start => exact ⟨0, rfl⟩
  | step _ hs ih =>
    obtain ⟨n, hn⟩ := ih
    exact ⟨n + 1, by rw [Pass.after, hn, Option.bind_some, hs]⟩

/-- A run that ends does so after a number of steps. -/
theorem after_of_run {fuel : Nat} (hr : p.run plan fuel = some q) :
    ∃ n, after plan p n = some q ∧ after plan p (n + 1) = none := by
  induction fuel generalizing p with
  | zero =>
    obtain ⟨-, hdone⟩ := reached_of_run hr
    rw [Moment.run_zero] at hr
    split at hr
    · obtain rfl := Option.some.inj hr
      exact ⟨0, rfl, by rw [after_succ, Moment.step_eq_none_iff.2 hdone, Option.bind_none]⟩
    · simp at hr
  | succ fuel ih =>
    rw [Moment.run_succ] at hr
    cases hs : p.step plan with
    | none =>
      obtain rfl : p = q := by simpa [hs] using hr
      exact ⟨0, rfl, by rw [after_succ, hs, Option.bind_none]⟩
    | some p' =>
      simp only [hs] at hr
      obtain ⟨n, hn, hnone⟩ := ih hr
      refine ⟨n + 1, ?_, ?_⟩
      · rw [after_succ, hs, Option.bind_some, hn]
      · rw [after_succ, hs, Option.bind_some, hnone]

/-- A step enters a node or leaves it as it was. -/
theorem entered_of_step (hs : p.step plan = some q) (id : Nat) :
    q.entered[id]? = p.entered[id]? ∨
      (q.entered[id]?).isSome = true ∧ ∃ n env, Enters plan p id n env q := by
  obtain ⟨id', -, hpass | ⟨n, env, he⟩⟩ := step_cases hs
  · rw [hpass.pass]
    exact .inl rfl
  · by_cases hid : id' = id
    · subst hid
      refine .inr ⟨?_, n, env, he⟩
      rw [he.pass, record_entered, Std.HashMap.getElem?_insert_self]
      rfl
    · rw [he.pass, record_entered, Std.HashMap.getElem?_insert, if_neg (by simpa using hid)]
      exact .inl rfl

/-- A node other than the entry is entered on a live edge. -/
theorem Enters.liveInto_ne_nil {n : Node} (he : Enters plan p id n env q)
    (hid : id ≠ plan.graph.entry) : p.liveInto plan.graph id ≠ [] := by
  intro hnil
  have hnone : p.arrival plan id = none := arrival_eq_none_iff.2 ⟨hid, hnil⟩
  simp [he.arrives] at hnone

/-- An entered node has a live edge into it, or was cut off. -/
theorem liveInto_or_cutOff {n : Nat} (hn : after plan (.start plan.graph u) n = some p)
    (hid : id ≠ plan.graph.entry) (he : (p.entered[id]?).isSome = true) :
    p.liveInto plan.graph id ≠ [] ∨ CutOff plan u n id := by
  induction n generalizing p with
  | zero =>
    obtain rfl : Moment.start plan.graph u = p := Option.some.inj hn
    simp [Moment.start, start] at he
  | succ n ih =>
    obtain ⟨q, hq, hs⟩ := Option.bind_eq_some_iff.1 hn
    by_cases hdead : p.liveInto plan.graph id = []
    · refine .inr ?_
      -- the last moment is the only one behind that at which the edges may have died
      have hlast (m : Nat) (r : Moment) (hm : m ≤ n + 1) (hlt : n < m)
          (hr : after plan (.start plan.graph u) m = some r) : r.liveInto plan.graph id = [] := by
        obtain rfl : m = n + 1 := by omega
        obtain rfl : p = r := Option.some.inj (hn.symm.trans hr)
        exact hdead
      by_cases hold : q.liveInto plan.graph id = []
      · -- the edge was dead already, so the node was entered before
        have hentered : (q.entered[id]?).isSome = true := by
          rcases entered_of_step hs id with heq | ⟨-, node, env, hent⟩
          · rwa [heq] at he
          · exact absurd hold (hent.liveInto_ne_nil hid)
        obtain ⟨k, hk, r, hr, hent, hlive, hsince⟩ :=
          (ih hq hentered).resolve_left fun hlive => hlive hold
        refine ⟨k, by omega, r, hr, hent, hlive, fun m t hkm hm ht => ?_⟩
        by_cases hmn : m ≤ n
        · exact hsince m t hkm hmn ht
        · exact hlast m t hm (by omega) ht
      · -- the edge died in this step
        refine ⟨n, by omega, q, hq, ?_, hold, fun m r hlt hm hr => hlast m r hm hlt hr⟩
        rcases entered_of_step hs id with heq | ⟨-, node, env, hent⟩
        · rwa [heq] at he
        · -- only its own edges can have died
          obtain ⟨e, hmem⟩ := List.exists_mem_of_ne_nil _ hold
          obtain ⟨m, k, hk, hedge⟩ := mem_liveInto.1 hmem
          by_cases hm : m = id
          · subst hm
            obtain ⟨env', henv'⟩ := (reached_of_after hq).edge_entered hedge
            rw [henv']
            rfl
          · have hkept : p.edges[(m, k)]? = some e := by
              rw [hent.pass, record_edges, if_neg (by simp [hm])]
              exact hedge
            have hmem : e ∈ p.liveInto plan.graph id := mem_liveInto.2 ⟨m, k, hk, hkept⟩
            simp [hdead] at hmem
    · exact .inl hdead

theorem Reached.entered_mono (hr : Reached plan p q) (he : (p.entered[id]?).isSome = true) :
    (q.entered[id]?).isSome = true := by
  induction hr with
  | start => exact he
  | step _ hs ih =>
    rcases entered_of_step hs id with heq | ⟨hnew, -⟩
    · rwa [heq]
    · exact hnew

theorem reached_of_after_le {k n : Nat} (hk : after plan p k = some q) (hn : after plan p n = some r)
    (hle : k ≤ n) : Reached plan q r := by
  induction n generalizing r with
  | zero =>
    obtain rfl : k = 0 := by omega
    obtain rfl : q = r := Option.some.inj (hk.symm.trans hn)
    exact .start
  | succ n ih =>
    by_cases hkn : k = n + 1
    · subst hkn
      obtain rfl : q = r := Option.some.inj (hk.symm.trans hn)
      exact .start
    · obtain ⟨r', hr', hs⟩ := Option.bind_eq_some_iff.1 hn
      exact (ih hr' (by omega)).step hs

/-- A node that was cut off stays entered, without a live edge into it. -/
theorem CutOff.stays {n : Nat} (hc : CutOff plan u n id) (hn : after plan (.start plan.graph u) n = some p) :
    (p.entered[id]?).isSome = true ∧ p.liveInto plan.graph id = [] := by
  obtain ⟨k, hk, q, hq, hent, -, hsince⟩ := hc
  exact ⟨(reached_of_after_le hq hn (by omega)).entered_mono hent, hsince n p hk (Nat.le_refl n) hn⟩


/-! ## A body with a node that is cut off -/

/-- `function f() { while (?) { let q: null = null }; if (q === q) {} else { throw } }` -/
def stranded : Graph where
  name := "f"
  nodes := #[{ op := .entry, succs := [1] }, { op := .merge, succs := [2] },
    { op := .branch none, succs := [3, 4] },
    { op := .assign "q" (.const .null) true (some .null), succs := [1] },
    { op := .branch (some selfTest), succs := [6, 5] }, { op := .throw none, succs := [] },
    { op := .exit, succs := [] }]
  entry := 0
  exit := 6
  params := []
  returns := none
  declared := { bindings := [("q", .null)] }

/-- The body as it would be written down. -/
def strandedSketch : Sketch where
  name := "f"
  nodes := [some { id := 0, draft := .op .entry, succs := [1] },
    some { id := 1, draft := .op .merge, succs := [2] },
    some { id := 2, draft := .op (.branch none), succs := [3, 4] },
    some { id := 3, draft := .op (.assign "q" (.const .null) true (some .null)), succs := [1] },
    some { id := 4, draft := .op (.branch (some selfTest)), succs := [6, 5] },
    some { id := 5, draft := .op (.throw none), succs := [] },
    some { id := 6, draft := .op .exit, succs := [] }]
  entry := 0
  exit := 6
  params := []
  returns := none
  declared := { bindings := [("q", .null)] }

theorem stranded_order : stranded.reversePostorder = [0, 1, 2, 4, 5, 6, 3] := by
  simp [reversePostorder, search, stranded, size, succs]

theorem stranded_headers : stranded.loopHeaders = [1] := by
  have hsize : List.range stranded.size = [0, 1, 2, 3, 4, 5, 6] := rfl
  have h0 : stranded.succs 0 = [1] := rfl
  have h1 : stranded.succs 1 = [2] := rfl
  have h2 : stranded.succs 2 = [3, 4] := rfl
  have h3 : stranded.succs 3 = [1] := rfl
  have h4 : stranded.succs 4 = [6, 5] := rfl
  have h5 : stranded.succs 5 = [] := rfl
  have h6 : stranded.succs 6 = [] := rfl
  simp [loopHeaders, stranded_order, positions, Std.HashMap.getD_insert, hsize, h0, h1, h2, h3, h4, h5, h6]

theorem plan_stranded (limit : Nat) :
    stranded.plan {} limit = { graph := stranded, surroundings := {}, order := [0, 1, 2, 4, 5, 6, 3],
                               headers := [1], maxLoopVisits := limit } := by
  rw [Graph.plan, stranded_order, stranded_headers]

/-- Both edges into the loop together bring `q`, whatever the limit is. -/
theorem yields_joined (late : Bool) :
    u.Yields h (do
      let all ← Env.joinAll [({} : Env), tested] (unbound stranded.declared)
      return some ({ bindings := ← widenBindings stranded.declared {} late all.bindings } : Env))
      fun _ found => found = some tested := by
  have hunion : h.union [.null, .null] = .null := rfl
  have hnames : (Env.ofList ([({} : Env), tested].flatMap (·.bindings))).names = ["q"] := rfl
  have htypes : [({} : Env), tested].map (fun e => (e.find? "q").getD (unbound stranded.declared "q")) =
      [.null, .null] := rfl
  rw [Env.joinAll.eq_def]
  simp only [hnames, Env.joinNames, htypes, bind_assoc, pure_bind]
  refine .of_sound fun v hv _ => ?_
  have hnull : v.Stands .null .null := stands_atom hv (by simp [atoms])
  refine (yields_union (.cons hnull (.cons hnull .nil))).bind fun w t hw _ ht => ?_
  rw [hunion] at ht
  obtain rfl := eq_of_key_eq_atom (by simp [atoms]) (hw.key_eq ht.lookup?)
  have hkept : ∀ b ∈ [("q", Ty.null)], w.Keeps b.2 := by simpa using hw.atom (by simp [atoms])
  refine Says.bind (says_widenBindings hkept (by simp [Env.find?])) (.pure fun _ _ _ => ?_)
  · cases late <;> rfl

/-- The states of a pass over the body: the test kills its edge to the throw when the loop has bound
`q`. -/
def strandedStage : Nat → Table
  | 0 => Table.start stranded
  | n + 1 =>
    let T := strandedStage n
    match n with
    | 0 => T.entering 0 {} 1 [((0, 0), {})] [1]
    | 1 => T.entering 1 {} 1 [((1, 0), {})] [2]
    | 2 => T.entering 2 {} 1 [((2, 1), {}), ((2, 0), {})] [4, 3]
    | 3 => T.entering 4 {} 1 [((4, 1), tested), ((4, 0), tested)] [5, 6, 3]
    | 4 => T.entering 5 tested 1 [] [6, 3]
    | 5 => T.entering 6 tested 1 [] [3]
    | 6 => T.entering 3 {} 1 [((3, 0), tested)] [1]
    | 7 => T.entering 1 tested 2 [((1, 0), tested)] [2]
    | 8 => T.entering 2 tested 2 [((2, 1), tested), ((2, 0), tested)] [4, 3]
    | 9 =>
      { T.entering 4 tested 2 [] [5, 3] with edges := T.edges.filter (·.1 != (4, 1)) }
    | 10 => { T with waiting := [3] }
    | _ => T.entering 3 tested 2 [] []

theorem says_stranded (hu : u.Sound h) (limit : Nat) :
    u.Says h (Table.run (stranded.plan {} limit) 12 (strandedStage 0)) (some (strandedStage 12)) := by
  rw [plan_stranded]
  refine Table.says_run_enter 0 {} [some {}] (strandedStage 1) rfl rfl (Says.pure h u _) rfl
    (.pure fun _ _ _ => ⟨rfl, rfl⟩) rfl ?_
  refine Table.says_run_enter 1 {} [some {}] (strandedStage 2) rfl rfl (Says.pure h u _) rfl
    (.pure fun _ _ _ => ⟨rfl, rfl⟩) rfl ?_
  refine Table.says_run_enter 2 {} [some {}, some {}] (strandedStage 3) rfl rfl (Says.pure h u _) rfl
    (.pure fun _ _ _ => ⟨rfl, rfl⟩) rfl ?_
  refine Table.says_run_enter 4 {} _ (strandedStage 4) rfl rfl (Says.pure h u _) rfl (yields_unbound hu {}) rfl ?_
  refine Table.says_run_enter 5 tested [] (strandedStage 5) rfl rfl (Says.pure h u _) rfl
    (.pure fun _ _ _ => ⟨rfl, rfl⟩) rfl ?_
  refine Table.says_run_enter 6 tested [] (strandedStage 6) rfl rfl (Says.pure h u _) rfl
    (.pure fun _ _ _ => ⟨rfl, rfl⟩) rfl ?_
  refine Table.says_run_enter 3 {} _ (strandedStage 7) rfl rfl (Says.pure h u _) rfl
    (yields_assign_null _ _ _ rfl rfl) rfl ?_
  refine Table.says_run_enter 1 tested [some tested] (strandedStage 8) rfl rfl ?_ rfl
    (.pure fun _ _ _ => ⟨rfl, rfl⟩) rfl ?_
  · exact Table.says_arriving_header [{}, tested] 1 (show 1 ≠ 0 by decide) (by simp) rfl rfl rfl rfl (yields_joined _)
  refine Table.says_run_enter 2 tested [some tested, some tested] (strandedStage 9) rfl rfl (Says.pure h u _) rfl
    (.pure fun _ _ _ => ⟨rfl, rfl⟩) rfl ?_
  refine Table.says_run_enter 4 tested _ (strandedStage 10) rfl rfl (Says.pure h u _) rfl (yields_tested hu {}) rfl ?_
  refine Table.says_run_pass 5 (strandedStage 11) rfl (Says.pure h u _) rfl ?_
  refine Table.says_run_enter 3 tested _ (strandedStage 12) rfl rfl (Says.pure h u _) rfl
    (yields_assign_null _ _ _ rfl rfl) rfl ?_
  have hdone : (strandedStage 12).next? { graph := stranded, surroundings := {}, order := [0, 1, 2, 4, 5, 6, 3],
                                          headers := [1], maxLoopVisits := limit } = none := rfl
  rw [Table.run, hdone]
  exact Says.pure h u _

/-- A pass over the body is done after twelve steps. -/
theorem analyze_stranded (hu : u.Sound h) :
    ∃ p : Moment, (stranded.analyze {} {} false : InUniverse (Except PassError Pass)).run u = (.ok p.toPass, p.store) ∧
      (strandedStage 12).Shows p.toPass := by
  have hend : ((Table.run (stranded.plan {} 2) 12 (strandedStage 0)).run u).1 = some (strandedStage 12) :=
    (says_stranded hu 2 u hu (.refl h u)).2.2
  obtain ⟨p, hrun, hshows, -⟩ := Table.Shows.run (.start stranded)
    (Prod.ext hend rfl : (Table.run (stranded.plan {} 2) 12 (strandedStage 0)).run u = (_, _))
  exact ⟨p, analyze_of_run (by simp [Limits.exceededBy]) (run_mono hrun (by decide)), hshows⟩

/-- The throw was entered, and no edge into it is live. -/
theorem stranded_throw (hp : (strandedStage 12).Shows p.toPass) :
    p.entered[5]? = some tested ∧ p.liveInto stranded 5 = [] := by
  refine ⟨hp.entered 5, ?_⟩
  unfold liveInto
  simp only [hp.edges]
  rfl

/-! ## The nodes that a result reports -/

/-- A node other than the entry is reported exactly if something flows into it. -/
def Exact (plan : Plan) (u : Universe) (p : Moment) : Prop :=
  ∀ id, id ≠ plan.graph.entry →
    ((p.entered[id]?).isSome = true ↔ ∃ out, Flows plan u p id out)

/-- **When a pass is done, every node that something flows into is reported, and the nodes that are
reported without are those that were cut off**, whatever the universe holds and remembers. So the report is
exact if and only if there are none. -/
theorem exact_iff_not_cutOff (u : Universe) (sketch : Sketch) (g : Graph) (s : Surroundings)
    (limits : Limits) (calledOff : Bool) (p : Moment) (hcheck : sketch.check = .ok g)
    (hrun : (g.analyze s limits calledOff : InUniverse (Except PassError Pass)).run u = (.ok p.toPass, p.store)) :
    ∃ n, after (g.plan s limits.maxLoopVisits) (.start g u) n = some p ∧
      after (g.plan s limits.maxLoopVisits) (.start g u) (n + 1) = none ∧
      (∀ id out, Flows (g.plan s limits.maxLoopVisits) u p id out → (p.entered[id]?).isSome = true) ∧
      (∀ id, id ≠ g.entry → ((p.entered[id]?).isSome = true ∧
          (¬ ∃ out, Flows (g.plan s limits.maxLoopVisits) u p id out) ↔
        CutOff (g.plan s limits.maxLoopVisits) u n id)) ∧
      (Exact (g.plan s limits.maxLoopVisits) u p ↔
        ∀ id, id ≠ g.entry → ¬ CutOff (g.plan s limits.maxLoopVisits) u n id) := by
  obtain ⟨n, hn, hnone⟩ := after_of_run (run_of_analyze hrun)
  obtain ⟨hr, hdone⟩ := reached_of_analyze hrun
  have hg := Sketch.check_valid hcheck
  have hentered (id : Nat) (out : Env) (hf : Flows (g.plan s limits.maxLoopVisits) u p id out) :
      (p.entered[id]?).isSome = true := hf.entered hg hr hdone
  have hcut (id : Nat) (hid : id ≠ g.entry) : (p.entered[id]?).isSome = true ∧
      (¬ ∃ out, Flows (g.plan s limits.maxLoopVisits) u p id out) ↔
        CutOff (g.plan s limits.maxLoopVisits) u n id := by
    rw [flows_iff_liveInto hr, not_not]
    constructor
    · rintro ⟨he, hdead⟩
      exact (liveInto_or_cutOff hn hid he).resolve_left fun hlive => hlive hdead
    · intro hc
      exact hc.stays hn
  -- a node is entered as soon as an edge into it is live, so the nodes entered in vain are those cut off later
  refine ⟨n, hn, hnone, hentered, hcut, fun hexact id hid hc => ?_, fun hno id hid => ⟨fun he => ?_, ?_⟩⟩
  · obtain ⟨he, hdead⟩ := (hcut id hid).2 hc
    exact hdead ((hexact id hid).1 he)
  · by_contra hdead
    exact hno id hid ((hcut id hid).1 ⟨he, hdead⟩)
  · rintro ⟨out, hf⟩
    exact hentered id out hf

/-- The throw of the body is a node that was cut off. -/
theorem stranded_throw_cutOff :
    ∃ (p : Moment) (n : Nat), (stranded.analyze {} {} false : InUniverse (Except PassError Pass)).run (.new 0) =
        (.ok p.toPass, p.store) ∧
      after (stranded.plan {} 2) (.start stranded (.new 0)) n = some p ∧
      CutOff (stranded.plan {} 2) (.new 0) n 5 := by
  obtain ⟨p, hrun, hp⟩ := analyze_stranded (sound_new 0)
  obtain ⟨hentered, hdead⟩ := stranded_throw hp
  obtain ⟨n, hn, -, -, hcut, -⟩ :=
    exact_iff_not_cutOff (.new 0) strandedSketch stranded {} {} false p rfl hrun
  refine ⟨p, n, hrun, hn, (hcut 5 (by decide)).1 ⟨by rw [hentered]; rfl, ?_⟩⟩
  rw [flows_iff_liveInto (reached_of_analyze hrun).1, not_not]
  exact hdead

/-- **A node stays reported after the last live edge into it has died**: nothing flows into the throw of a
body that passes its checks, and the result has an environment for it. -/
theorem stranded_stays_reached :
    strandedSketch.check = .ok stranded ∧
      ∃ p : Moment, (stranded.analyze {} {} false : InUniverse (Except PassError Pass)).run (.new 0) =
          (.ok p.toPass, p.store) ∧
        p.entered[5]? = some tested ∧ (¬ ∃ out, Flows (stranded.plan {} 2) (.new 0) p 5 out) ∧
        ¬ Exact (stranded.plan {} 2) (.new 0) p := by
  obtain ⟨p, hrun, hp⟩ := analyze_stranded (sound_new 0)
  obtain ⟨hentered, hdead⟩ := stranded_throw hp
  have hnone : ¬ ∃ out, Flows (stranded.plan {} 2) (.new 0) p 5 out := by
    rw [flows_iff_liveInto (reached_of_analyze hrun).1, not_not]
    exact hdead
  refine ⟨rfl, p, hrun, hentered, hnone, fun hexact => ?_⟩
  apply hnone
  apply (hexact 5 (by decide)).1
  rw [hentered]
  rfl

end FlowTyping.Graph.Pass
