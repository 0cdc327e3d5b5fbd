import FlowTyping.Proofs.Flow.Order
import FlowTyping.Proofs.Flow.Step
import FlowTyping.Proofs.Flow.Transfer

/-!
# What is left to widen

A loop header past its limit moves the types of its variables to their declared types, one after the
other and once each. So there is a number that goes down whenever the header is entered, as long as the
declared types stay and no variable of the header is lost.

* **`Pass.Tidy`** — all environments of a pass are sorted, over the variables of the graph.
* **`Pass.potential`** — the visits that are left before the limit, then the variables that do not have
  their declared types.
* **`Pass.potential_lt`** — entering a header in a steady step takes from it.
-/

namespace FlowTyping.Graph.Pass

open Universe

variable {g : Graph} {s : Surroundings} {limit : Nat} {p q : Moment} {id : Nat}

/-! ## The variables of a pass -/

/-- All environments bind variables of the graph, and only entered nodes have visits. -/
structure Tidy (g : Graph) (p : Pass) : Prop where
  entered : ∀ (id : Nat) (env : Env), p.entered[id]? = some env → env.Fits g.vars
  edges : ∀ (n k : Nat) (env : Env), p.edges[(n, k)]? = some env → env.Fits g.vars
  visits : ∀ id : Nat, p.entered[id]? = none → p.visits.getD id 0 = 0

theorem tidy_start (g : Graph) : (start g).Tidy g where
  entered id env he := by simp [start] at he
  edges n k env he := by simp [start] at he
  visits id _ := by simp [start]

theorem always_incoming_fits {p : Pass} (hp : p.Tidy g) :
    Always (p.incoming g id) fun found => ∀ env ∈ found, env.Fits g.vars := by
  rw [incoming.eq_def]
  split
  · refine (always_entryEnv_fits (fun x hx => ?_) (.empty _)).bind fun env henv => .pure (by simpa using henv)
    exact List.mem_append_left _ (List.mem_map_of_mem hx)
  · have hlive (e) (he : e ∈ p.liveInto g id) : e.Fits g.vars := by
      obtain ⟨n, k, -, hedge⟩ := mem_liveInto.1 he
      exact hp.edges n k e hedge
    split
    · exact .pure (by simp)
    · refine ((Env.always_sorted_joinAll fun e he => (hlive e he).sorted).and
        (Env.always_names_joinAll _ _)).bind fun env henv => .pure fun env' henv' => ?_
      obtain rfl := Option.some.inj henv'
      refine ⟨henv.1, fun x hx => ?_⟩
      obtain ⟨e, he, hx⟩ := (henv.2 x).1 hx
      exact (hlive e he).names_subset x hx

theorem arrival_fits (hp : p.Tidy g) {env : Env} (ha : p.arrival (g.plan s limit) id = some env) :
    env.Fits g.vars := by
  have harriving : Always (p.arriving (g.plan s limit) id) fun found => ∀ env ∈ found, env.Fits g.vars := by
    refine (always_incoming_fits hp).bind fun found hfound => ?_
    cases found with
    | none => exact .pure (by simp)
    | some env =>
      have henv := hfound env rfl
      have hplain : Always (return some env) fun found => ∀ env ∈ found, env.Fits g.vars :=
        .pure (by simpa using henv)
      dsimp only
      split
      · refine .ite ((Env.always_widenBindings _ _ _ _).bind fun bs hbs => .pure fun env' henv' => ?_) hplain
        obtain rfl := Option.some.inj henv'
        have hnames : ({ bindings := bs } : Env).names = env.names := Env.names_of_widened hbs
        exact ⟨by rw [Env.Sorted, hnames]; exact henv.sorted, hnames ▸ henv.names_subset⟩
      · exact hplain
  exact harriving p.store env ha

/-- A loop header is entered again with bindings that were widened. -/
theorem arrival_header {plan : Plan} {old env : Env} (ha : p.arrival plan id = some env)
    (hold : p.entered[id]? = some old) (hh : plan.headers.contains id = true) :
    ∃ bs, List.Forall₂ (Env.Widened p.declared old (plan.maxLoopVisits ≤ p.visits.getD id 0)) bs
      env.bindings := by
  have harriving : Always (p.arriving plan id) fun found => ∀ env ∈ found, ∃ bs,
      List.Forall₂ (Env.Widened p.declared old (plan.maxLoopVisits ≤ p.visits.getD id 0)) bs env.bindings := by
    refine .of_all fun found => ?_
    cases found with
    | none => exact .pure (by simp)
    | some met =>
      dsimp only
      rw [hold]
      dsimp only
      rw [if_pos hh]
      refine (Env.always_widenBindings _ _ _ _).bind fun bs hbs => .pure fun env' henv' => ?_
      obtain rfl := Option.some.inj henv'
      exact ⟨met.bindings, hbs⟩
  exact harriving p.store env ha

theorem binds_subset {n : Node} (hn : g.nodes[id]? = some n) {x : String} (hx : x ∈ n.op.binds) :
    x ∈ g.vars := by
  refine List.mem_append_right _ (List.mem_flatMap.2 ⟨n, ?_, hx⟩)
  exact Array.mem_toList_iff.2 (Array.mem_of_getElem? hn)

/-- What is noted on an edge was there before or leaves the node. -/
theorem noted_eq {old out : Option Env} {env : Env} (hn : noted old out = some env) :
    old = some env ∨ out = some env := by
  rw [noted.eq_def] at hn
  split at hn
  · simp at hn
  · exact .inr hn
  · split at hn
    · exact .inl hn
    · exact .inr hn

theorem Enters.tidy (hp : p.Tidy g) {n : Node} {env : Env}
    (he : Enters (g.plan s limit) p id n env q) : q.Tidy g := by
  have hfits := arrival_fits hp he.arrives
  rw [he.pass]
  refine ⟨fun id' env' hid => ?_, fun m k env' hedge => ?_, fun id' hid => ?_⟩
  · rw [record_entered, Std.HashMap.getElem?_insert] at hid
    split at hid
    · obtain rfl := Option.some.inj hid
      exact hfits
    · exact hp.entered id' env' hid
  · rw [record_edges] at hedge
    split at hedge
    · rcases noted_eq hedge with hold | hout
      · exact hp.edges m k env' hold
      · refine always_transfer_fits s g.returns p.declared (fun x hx => binds_subset he.node hx) hfits
          (p.arrived (g.plan s limit) id) env' (List.mem_of_getElem? (i := k) ?_)
        exact Option.getD_eq_iff.1 hout |>.resolve_right (by simp)
    · exact hp.edges m k env' hedge
  · rw [record_entered, Std.HashMap.getElem?_insert] at hid
    rw [record_visits, Std.HashMap.getD_insert]
    split at hid
    · simp at hid
    · rename_i hne
      rw [if_neg hne]
      exact hp.visits id' hid

/-! ## What is left to widen -/

/-- Whether a variable has its declared type. -/
def atDeclared (declared : Env) (env : Option Env) (x : String) : Bool :=
  match env.bind (·.find? x) with
  | some t => t.same ((declared.find? x).getD .unknown)
  | none => false

/-- What is left to widen at a loop header: visits up to the limit, and then variables that do not have
their declared types. -/
def potential (g : Graph) (limit id : Nat) (p : Moment) : Nat :=
  (limit + 1 - p.visits.getD id 0) * (g.vars.length + 1) +
    g.vars.countP fun x => !atDeclared p.declared p.entered[id]? x

/-- No declared type changes, and no loop header loses a variable. -/
structure Steady (g : Graph) (p q : Moment) : Prop where
  declared : p.declared.same q.declared = true
  bound : ∀ id ∈ g.loopHeaders, ∀ (old env : Env), p.entered[id]? = some old →
    q.entered[id]? = some env → ∀ x ∈ old.names, x ∈ env.names

theorem atDeclared_congr {declared declared' : Env} (hd : declared.same declared' = true)
    (env : Option Env) (x : String) : atDeclared declared env x = atDeclared declared' env x := by
  have hkey := Env.key_find?_of_same hd x
  rw [atDeclared, atDeclared]
  cases env.bind (·.find? x) with
  | none => rfl
  | some t =>
    dsimp only
    rw [Bool.eq_iff_iff, Ty.same_iff, Ty.same_iff]
    cases hd : declared.find? x <;> cases hd' : declared'.find? x <;> simp_all

theorem atDeclared_some {declared env : Env} {x : String} :
    atDeclared declared (some env) x = true ↔
      ∃ t, env.find? x = some t ∧ t.key = ((declared.find? x).getD .unknown).key := by
  rw [atDeclared, Option.bind_some]
  cases env.find? x <;> simp [Ty.same_iff]

/-- A step that does not enter a node leaves its potential. -/
theorem potential_eq (hs : Steady g p q) (hentered : q.entered[id]? = p.entered[id]?)
    (hvisits : q.visits.getD id 0 = p.visits.getD id 0) :
    potential g limit id q = potential g limit id p := by
  rw [potential, potential, hentered, hvisits]
  simp only [atDeclared_congr hs.declared]

/-- Entering a loop header takes from its potential, as long as the pass is steady. -/
theorem potential_lt (hp : p.Tidy g) (hid : id ∈ g.loopHeaders) {n : Node} {env : Env}
    (he : Enters (g.plan s limit) p id n env q) (hs : Steady g p q) :
    potential g limit id q < potential g limit id p := by
  have hentered : q.entered[id]? = some env := by
    rw [he.pass, record_entered, Std.HashMap.getElem?_insert_self]
  have hvisits : q.visits.getD id 0 = p.visits.getD id 0 + 1 := by
    rw [he.pass, record_visits, Std.HashMap.getD_insert_self]
  have hle : (g.vars.countP fun x => !atDeclared q.declared q.entered[id]? x) ≤ g.vars.length :=
    List.countP_le_length
  rw [potential, potential, hvisits]
  by_cases hlimit : p.visits.getD id 0 ≤ limit
  · have hsucc : limit + 1 - p.visits.getD id 0 = limit + 1 - (p.visits.getD id 0 + 1) + 1 := by omega
    rw [hsucc, Nat.succ_mul]
    omega
  · have hzero : limit + 1 - p.visits.getD id 0 = 0 := by omega
    have hzero' : limit + 1 - (p.visits.getD id 0 + 1) = 0 := by omega
    rw [hzero, hzero', Nat.zero_mul, Nat.zero_add, Nat.zero_add]
    obtain ⟨old, hold⟩ : ∃ old, p.entered[id]? = some old := by
      cases hold : p.entered[id]? with
      | none =>
        have := hp.visits id hold
        omega
      | some old => exact ⟨old, rfl⟩
    -- past the limit the header keeps types or takes declared ones
    have hheader : (g.plan s limit).headers.contains id = true := by
      simpa [Graph.plan] using hid
    obtain ⟨bs, hwidened⟩ := arrival_header he.arrives hold hheader
    rw [decide_eq_true (by show limit ≤ _; omega)] at hwidened
    have hkeep {x : String} {t : Ty} (hx : env.find? x = some t) :
        old.find? x = some t ∨ t = (p.declared.find? x).getD .unknown := by
      obtain ⟨_, -, hcase⟩ := Env.find?_of_widened hwidened hx
      exact hcase
    have hbound {x : String} {t : Ty} (hx : old.find? x = some t) : ∃ u, env.find? x = some u := by
      have := hs.bound id hid old env hold hentered x (Env.mem_names_iff.2 (by simp [hx]))
      exact Option.isSome_iff_exists.1 (Env.mem_names_iff.1 this)
    have hstill {x : String} (hx : atDeclared p.declared (some old) x = true) :
        atDeclared p.declared (some env) x = true := by
      obtain ⟨t, ht, hk⟩ := atDeclared_some.1 hx
      obtain ⟨u, hu⟩ := hbound ht
      refine atDeclared_some.2 ⟨u, hu, ?_⟩
      rcases hkeep hu with hsame | rfl
      · obtain rfl : t = u := by simpa [ht] using hsame
        exact hk
      · rfl
    -- the environment is a new one, so some variable has changed to its declared type
    have hchanged : ∃ x, (old.find? x).map Ty.key ≠ (env.find? x).map Ty.key := by
      refine Classical.byContradiction fun hno => ?_
      have hsame := Env.same_of_key_find? (hp.entered id old hold).sorted
        (arrival_fits hp he.arrives).sorted fun x => Classical.not_not.1 fun hx => hno ⟨x, hx⟩
      have hfresh := he.fresh
      simp [stale, hold, hsame] at hfresh
    obtain ⟨x, hx⟩ := hchanged
    obtain ⟨u, hu⟩ : ∃ u, env.find? x = some u := by
      cases hold' : old.find? x with
      | some t => exact hbound hold'
      | none =>
        rw [hold'] at hx
        exact Option.ne_none_iff_exists'.1 fun hnone => hx (by simp [hnone])
    have hdeclared : u = (p.declared.find? x).getD .unknown :=
      (hkeep hu).resolve_left fun hsame => hx (by rw [hsame, hu])
    have hnow : atDeclared p.declared (some env) x = true :=
      atDeclared_some.2 ⟨u, hu, by rw [hdeclared]⟩
    have hbefore : atDeclared p.declared (some old) x = false := by
      rw [Bool.eq_false_iff]
      intro hat
      obtain ⟨t, ht, hk⟩ := atDeclared_some.1 hat
      exact hx (by simp [ht, hu, hk, hdeclared])
    simp only [← atDeclared_congr hs.declared, hentered, hold]
    refine countP_lt (x := x) (fun y _ hy => ?_) ?_ (by simp [hnow]) (by simp [hbefore])
    · cases hat : atDeclared p.declared (some old) y with
      | true => simp [hstill hat] at hy
      | false => rfl
    · exact (arrival_fits hp he.arrives).names_subset x (Env.mem_names_iff.2 (by simp [hu]))

theorem Passes.tidy {plan : Plan} (hp : p.Tidy g) (hq : Passes plan p id q) : q.Tidy g := by
  rw [hq.pass]
  exact ⟨hp.entered, hp.edges, hp.visits⟩

theorem tidy_of_step (hp : p.Tidy g)
    (hs : p.step (g.plan s limit) = some q) : q.Tidy g := by
  obtain ⟨id, -, hpass | ⟨n, env, he⟩⟩ := step_cases hs
  · exact hpass.tidy hp
  · exact he.tidy hp

end FlowTyping.Graph.Pass
