import FlowTyping.Proofs.Flow.Kept
import FlowTyping.Proofs.Flow.Order
import FlowTyping.Proofs.Flow.Potential

/-!
# A node covers what flows into it

A node is looked at again whenever an edge into it changes, and is then entered in an environment that
covers the environments on all live edges into it. The one exception are variables of a loop header past
its limit: they take their declared types, whatever flows in.

* **`Pass.arrival_covers`** — a node would be entered in an environment that covers its edges.
* **`Pass.Covering`** — the nodes that do not wait cover their edges; **`Pass.covering_of_reached`** says that they
  do in every moment of a pass.
-/

namespace FlowTyping.Graph.Pass

open Ty Universe

variable {h : Hierarchy} {g : Graph} {s : Surroundings} {limit : Nat} {u : Universe} {p q : Moment} {id : Nat}

/-! ## What a node covers -/

/-- A variable of a loop header past its limit has a type that was its declared type in some moment of
the pass. -/
def WidenedTo (plan : Plan) (u : Universe) (p : Moment) (id : Nat) (x : String) (t : Ty) : Prop :=
  id ∈ plan.headers ∧ plan.maxLoopVisits ≤ p.visits.getD id 0 ∧
    ∃ q, Reached plan (.start plan.graph u) q ∧ q.declared.find? x = some t

/-- An environment covers another at a node: it binds its variables, to types above theirs or to
declared types after widening. -/
def Covers (h : Hierarchy) (plan : Plan) (u : Universe) (p : Moment) (id : Nat) (env e : Env) : Prop :=
  ∀ x t, e.find? x = some t →
    ∃ t', env.find? x = some t' ∧ (h.subtype t t' = true ∨ WidenedTo plan u p id x t')

/-- More visits do not matter. -/
theorem Covers.mono {plan : Plan} {env e : Env} (hc : Covers h plan u p id env e)
    (hv : p.visits.getD id 0 ≤ q.visits.getD id 0) : Covers h plan u q id env e := by
  intro x t hx
  obtain ⟨t', ht', hcase⟩ := hc x t hx
  refine ⟨t', ht', hcase.imp_right ?_⟩
  rintro ⟨hheader, hlimit, hwide⟩
  exact ⟨hheader, Nat.le_trans hlimit hv, hwide⟩

/-- What a variable is widened to covers what it covered before, or is its declared type. -/
theorem subtype_widenedTo {declared prev : Env} {limit : Bool} {x : String} {t r : Ty}
    (ht : h.subtype t r = true)
    (habove : ∀ old, prev.find? x = some old → h.subtype r old = true → h.subtype t old = true) :
    h.subtype t (Env.widenedTo h declared prev limit x r) = true ∨
      limit = true ∧ declared.find? x = some (Env.widenedTo h declared prev limit x r) := by
  have hnew : h.subtype t (if limit then (declared.find? x).getD .unknown else r) = true ∨
      limit = true ∧ declared.find? x = some (if limit then (declared.find? x).getD .unknown else r) := by
    cases limit with
    | false => exact .inl ht
    | true =>
      cases hd : declared.find? x with
      | none => exact .inl (h.subtype_unknown t)
      | some d => exact .inr ⟨rfl, rfl⟩
  rw [Env.widenedTo]
  cases hold : prev.find? x with
  | none => exact hnew
  | some old =>
    dsimp only
    split
    · rename_i hs
      exact .inl (habove old hold hs)
    · exact hnew

/-- A node would be entered in an environment that covers the live edges into it. -/
theorem arrival_covers (hp : Kept h (g.plan s limit) p) (hr' : Reached (g.plan s limit) (.start g u) p)
    (hid : id ≠ g.entry) {e : Env} (he : e ∈ p.liveInto g id) :
    ∃ env, p.arrival (g.plan s limit) id = some env ∧ Covers h (g.plan s limit) u p id env e := by
  have hlive (e : Env) (he : e ∈ p.liveInto g id) : e.KeptIn p.store := by
    obtain ⟨n, k, -, hedge⟩ := mem_liveInto.1 he
    exact hp.edge hedge
  suffices hyields : p.store.Yields h (p.arriving (g.plan s limit) id) fun _ found =>
      ∃ env, found = some env ∧ Covers h (g.plan s limit) u p id env e from
    (hyields p.store hp.sound (.refl h _)).2.2
  have hincoming : (p.incoming g id : InUniverse (Option Env)) =
      (do return some (← Env.joinAll (p.liveInto g id) (unbound p.declared))) := by
    rw [incoming.eq_def, if_neg hid]
    cases hnil : p.liveInto g id with
    | nil => simp [hnil] at he
    | cons e es => rfl
  rw [arriving, show (g.plan s limit).graph = g from rfl, hincoming, bind_assoc]
  -- each variable has a type in the join that is above its own, and everything above that is too
  refine (yields_joinAll hlive hp.keeps_unbound).bind fun v j hv huv hj => ?_
  obtain ⟨hkeeps, hj⟩ := hj
  have hplain : Covers h (g.plan s limit) u p id j e := by
    intro x t hx
    obtain ⟨r, hr, hsub, -⟩ := hj e he x t hx
    exact ⟨r, hr, .inl hsub⟩
  rw [pure_bind]
  dsimp only
  cases hold : p.entered[id]? with
  | none => exact .pure fun _ _ _ => ⟨j, rfl, hplain⟩
  | some old =>
    dsimp only
    split
    · rename_i hheader
      have hprev (x : String) (t : Ty) (hx : old.find? x = some t) : v.Keeps t :=
        huv.keeps ((hp.entered hold).find? hx)
      refine Says.bind (says_widenBindings hkeeps hprev) (.pure fun _ _ _ => ⟨_, rfl, fun x t hx => ?_⟩)
      obtain ⟨r, hr, hsub, habove⟩ := hj e he x t hx
      have hfind := Env.find?_widen (h := h) p.declared old
        (decide ((g.plan s limit).maxLoopVisits ≤ p.visits.getD id 0)) j x
      rw [hr] at hfind
      refine ⟨_, hfind, (subtype_widenedTo hsub fun old hx => habove old (hprev x old hx)).imp_right ?_⟩
      rintro ⟨hlate, hdeclared⟩
      exact ⟨List.contains_iff_mem.1 hheader, of_decide_eq_true hlate, p, hr', hdeclared⟩
    · exact .pure fun _ _ _ => ⟨j, rfl, hplain⟩

/-- The entry would be entered with the parameters, whatever flows into it. -/
theorem arrival_entry (hp : Kept h (g.plan s limit) p)
    (hbefore : ∀ env, p.entered[g.entry]? = some env →
      env.Mirrors p.store.Stands (entryEnv g.params {} : Ideal h Env).run) :
    ∃ env, p.arrival (g.plan s limit) g.entry = some env ∧
      env.Mirrors (p.arrived (g.plan s limit) g.entry).Stands (entryEnv g.params {} : Ideal h Env).run := by
  suffices hyields : p.store.Yields h (p.arriving (g.plan s limit) g.entry) fun v found =>
      ∃ env, found = some env ∧ env.Mirrors v.Stands (entryEnv g.params {} : Ideal h Env).run from
    (hyields p.store hp.sound (.refl h _)).2.2
  have hincoming : (p.incoming g g.entry : InUniverse (Option Env)) =
      (do return some (← entryEnv g.params {})) := by
    rw [incoming.eq_def, if_pos rfl]
  rw [arriving, show (g.plan s limit).graph = g from rfl, hincoming, bind_assoc]
  have hfits : Always (entryEnv g.params {}) (Env.Fits (g.params.map (·.name))) :=
    always_entryEnv_fits (fun x hx => List.mem_map_of_mem hx) (.empty _)
  refine ((yields_entryEnv hp.keeps_params .empty).and_always hfits).bind fun v env hv huv henv => ?_
  obtain ⟨henv, hsorted⟩ := henv
  have hgrow {w : Universe} (hvw : v.Grows h w) :
      env.Mirrors w.Stands (entryEnv g.params {} : Ideal h Env).run := henv.imp fun _ _ hst => hst.grows hvw
  rw [pure_bind]
  dsimp only
  cases hold : p.entered[g.entry]? with
  | none => exact .pure fun _ _ hvw => ⟨env, rfl, hgrow hvw⟩
  | some old =>
    dsimp only
    split
    · -- a header that comes back to the parameters widens nothing
      obtain rfl : old = env := (hbefore old hold).eq_of_stands henv huv
      have hkeeps (b : String × Ty) (hb : b ∈ old.bindings) : v.Keeps b.2 := by
        obtain ⟨c, -, hbc⟩ := exists_mem_right henv hb
        exact hv.keeps_of_stands hbc.2
      refine Says.bind (says_widenBindings hkeeps fun x t hx => ?_) (.pure fun _ _ hvw => ⟨_, rfl, ?_⟩)
      · exact huv.keeps ((hp.entered hold).find? hx)
      · refine (congrArg (fun bs => Env.Mirrors _ { bindings := bs } _) ?_).mpr (hgrow hvw)
        refine (List.map_congr_left fun b hb => ?_).trans (List.map_id _)
        simp [Env.widenedTo, hsorted.sorted.find?_of_mem hb]
    · exact .pure fun _ _ hvw => ⟨env, rfl, hgrow hvw⟩

/-! ## All moments of a pass -/

/-- What holds in every moment of a pass: its types are entries, a node that does not wait covers the live
edges into it, and the entry waits or was entered with the parameters. -/
structure Covering (h : Hierarchy) (g : Graph) (plan : Plan) (u : Universe) (p : Moment) : Prop where
  kept : Kept h plan p
  covers : ∀ id, p.waiting.contains id = false → id ≠ g.entry → ∀ e ∈ p.liveInto g id,
    ∃ env, p.entered[id]? = some env ∧ Covers h plan u p id env e
  entry_waits : p.entered[g.entry]? = none → p.waiting.contains g.entry = true
  entry_env : ∀ env, p.entered[g.entry]? = some env →
    env.Mirrors p.store.Stands (entryEnv g.params {} : Ideal h Env).run

theorem covering_start (hp : Kept h (g.plan s limit) (.start g u)) :
    Covering h g (g.plan s limit) u (.start g u) where
  kept := hp
  covers id _ _ e he := by
    obtain ⟨n, k, -, hedge⟩ := mem_liveInto.1 he
    simp [Moment.start, start] at hedge
  entry_waits _ := by simp [Moment.start, start]
  entry_env env he := by simp [Moment.start, start] at he

/-- A node with live edges into it is one of the graph. -/
theorem node_of_mem_liveInto {p : Pass} (hg : g.Valid) {e : Env} (he : e ∈ p.liveInto g id) :
    g.nodes[id]? ≠ none := by
  obtain ⟨n, k, hk, -⟩ := mem_liveInto.1 he
  have hlt := hg.succs_lt (List.mem_of_getElem? hk)
  simpa [size] using hlt

theorem Passes.covering (hg : g.Valid) (hr : Reached (g.plan s limit) (.start g u) p)
    (hp : Covering h g (g.plan s limit) u p) (hpass : Passes (g.plan s limit) p id q)
    (hq : Kept h (g.plan s limit) q ∧ p.store.Grows h q.store) : Covering h g (g.plan s limit) u q := by
  have hentered : q.entered = p.entered := by rw [hpass.pass]
  have hvisits : q.visits = p.visits := by rw [hpass.pass]
  have hwaiting : q.waiting = p.waiting.erase id := by rw [hpass.pass]
  have hlive (id' : Nat) : q.liveInto g id' = p.liveInto g id' := by rw [hpass.pass]; rfl
  refine ⟨hq.1, ?_, ?_, fun env he => ?_⟩
  · intro id' hwait hentry e he
    rw [hlive] at he
    rw [hentered]
    refine (?_ : ∃ env, p.entered[id']? = some env ∧ Covers h (g.plan s limit) u p id' env e).imp fun env henv =>
      ⟨henv.1, henv.2.mono (by rw [hvisits])⟩
    by_cases hid : id' = id
    · subst hid
      obtain ⟨env, harrives, hcovers⟩ := arrival_covers hp.kept hr hentry he
      rcases hpass.cause env harrives with hnone | hstale
      · exact absurd hnone (node_of_mem_liveInto hg he)
      · rw [stale] at hstale
        -- it was passed over since what arrived was what it had been entered with
        cases hold : p.entered[id']? with
        | none => simp [hold] at hstale
        | some old =>
          obtain ⟨-, hgrows, hkept⟩ := hp.kept.arrival id'
          have hsame := ((hp.kept.entered hold).grows hgrows).find?_eq_of_same (hkept env harrives)
            (by simpa [hold] using hstale)
          refine ⟨old, rfl, fun x t hx => ?_⟩
          rw [hsame x]
          exact hcovers x t hx
    · refine hp.covers id' ?_ hentry e he
      rw [hwaiting] at hwait
      simpa [Std.HashSet.contains_erase, Ne.symm hid] using hwait
  · intro hnone
    rw [hentered] at hnone
    rw [hwaiting]
    by_cases hid : g.entry = id
    · subst hid
      obtain ⟨env, harrives, -⟩ := arrival_entry hp.kept hp.entry_env
      rcases hpass.cause env harrives with hnode | hstale
      · have hlt := hg.entry_lt
        have hsize : g.nodes.size ≤ g.entry := by simpa [Graph.plan] using hnode
        exact absurd hlt (Nat.not_lt.2 hsize)
      · simp [stale, hnone] at hstale
    · simpa [Std.HashSet.contains_erase, Ne.symm hid] using hp.entry_waits hnone
  · rw [hentered] at he
    exact (hp.entry_env env he).imp fun _ _ hst => hst.grows hq.2

/-- The live edges into a node that does not come to wait were live before. -/
theorem Enters.mem_liveInto {plan : Plan} {n : Node} {env : Env} (he : Enters plan p id n env q)
    {id' : Nat} (hwait : q.waiting.contains id' = false) {e : Env}
    (hlive : e ∈ q.liveInto plan.graph id') : e ∈ p.liveInto plan.graph id' := by
  obtain ⟨m, k, hk, hedge⟩ := Pass.mem_liveInto.1 hlive
  refine Pass.mem_liveInto.2 ⟨m, k, hk, ?_⟩
  rw [he.pass] at hedge hwait
  by_cases hm : m = id
  · subst hm
    rw [succs, he.node] at hk
    rw [record_unchanged _ _ _ _ _ hk hwait] at hedge
    exact hedge
  · rw [record_edges, if_neg (by simp [hm])] at hedge
    exact hedge

theorem Enters.covering (hr : Reached (g.plan s limit) (.start g u) p)
    (hp : Covering h g (g.plan s limit) u p) {n : Node} {env : Env}
    (he : Enters (g.plan s limit) p id n env q) (hq : Kept h (g.plan s limit) q ∧ p.store.Grows h q.store) :
    Covering h g (g.plan s limit) u q := by
  have hentered : q.entered = p.entered.insert id env := by rw [he.pass, record_entered]
  have hvisits (id' : Nat) : p.visits.getD id' 0 ≤ q.visits.getD id' 0 := by
    rw [he.pass, record_visits, Std.HashMap.getD_insert]
    split
    · rename_i heq
      rw [eq_of_beq heq]
      exact Nat.le_succ _
    · exact Nat.le_refl _
  refine ⟨hq.1, ?_, ?_, ?_⟩
  · intro id' hwait hentry e hlive
    have hbefore := he.mem_liveInto hwait hlive
    by_cases hid : id' = id
    · subst hid
      -- it was entered with what arrived, which covers all that comes in
      obtain ⟨env', harrives, hcovers⟩ := arrival_covers hp.kept hr hentry hbefore
      obtain rfl : env = env' := by simpa [he.arrives] using harrives
      exact ⟨env, by rw [hentered, Std.HashMap.getElem?_insert_self], hcovers.mono (hvisits id')⟩
    · -- any other node was idle before, and keeps what it was entered with
      have hidle : p.waiting.contains id' = false := by
        rw [Bool.eq_false_iff] at hwait ⊢
        intro hw
        refine hwait ?_
        rw [he.pass]
        refine record_waiting_mono _ _ _ _ _ ?_
        simpa [Std.HashSet.contains_erase, Ne.symm hid] using hw
      obtain ⟨env', henv', hcovers⟩ := hp.covers id' hidle hentry e hbefore
      refine ⟨env', ?_, hcovers.mono (hvisits id')⟩
      rwa [hentered, Std.HashMap.getElem?_insert, if_neg (by simpa using Ne.symm hid)]
  · intro hnone
    rw [hentered, Std.HashMap.getElem?_insert] at hnone
    split at hnone
    · simp at hnone
    · rename_i hne
      rw [he.pass]
      refine record_waiting_mono _ _ _ _ _ ?_
      simpa [Std.HashSet.contains_erase, hne] using hp.entry_waits hnone
  · intro env' henv'
    rw [hentered, Std.HashMap.getElem?_insert] at henv'
    split at henv'
    · rename_i heq
      obtain rfl : id = g.entry := eq_of_beq heq
      obtain rfl := Option.some.inj henv'
      obtain ⟨env', harrives, hstands⟩ := arrival_entry hp.kept hp.entry_env
      obtain rfl : env = env' := by simpa [he.arrives] using harrives
      exact hstands.imp fun _ _ hst => hst.grows (hp.kept.enters he).1
    · exact (hp.entry_env env' henv').imp fun _ _ hst => hst.grows hq.2

/-- Every moment of a pass covers. -/
theorem covering_of_reached (hg : g.Valid) (hu : Kept h (g.plan s limit) (.start g u))
    (hr : Reached (g.plan s limit) (.start g u) p) : Covering h g (g.plan s limit) u p := by
  induction hr with
  | start => exact covering_start hu
  | step hr hs ih =>
    have hq := ih.kept.step hs
    obtain ⟨id, -, hpass | ⟨n, env, he⟩⟩ := step_cases hs
    · exact hpass.covering hg hr ih hq
    · exact he.covering hr ih hq

end FlowTyping.Graph.Pass
