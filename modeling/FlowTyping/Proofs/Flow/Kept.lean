import FlowTyping.Proofs.Flow.History
import FlowTyping.Proofs.Relation.Join

/-!
# Passes in a sound universe

A universe that keeps the types of a graph keeps all types of a pass over it, from the first moment to the
last, and it stays sound. One key is one type in it, so environments that are the same bind the same types.
What it answers on the way is what the rules say: a join is above what it joins, and a loop header widens to
what it covers.

* **`Pass.Kept`** — a moment whose universe keeps all types of the pass; **`Kept.of_reached`** says that every
  moment of a run is one.
* **`Pass.yields_joinAll`** — what is joined lies below the join, and below everything that the join lies below.
* **`Pass.says_widenBindings`** — widening is that of the rules (`Env.widenedTo`).
* **`Pass.yields_entryEnv`** — the environment in which a function is entered.
-/

namespace FlowTyping

open Ty Universe

/-! ## Environments over entries -/

namespace Env

variable {u v : Universe} {h : Hierarchy} {e f : Env} {x : String} {t : Ty}

/-- What an environment binds is an entry. -/
abbrev KeptIn (e : Env) (u : Universe) : Prop := e.Mirrors (Twins.mk u u).Alike e

theorem KeptIn.binding (he : e.KeptIn u) {b : String × Ty} (hb : b ∈ e.bindings) : u.Keeps b.2 := by
  obtain ⟨c, -, hbc⟩ := exists_mem_right he hb
  exact hbc.2.left

theorem KeptIn.find? (he : e.KeptIn u) (hx : e.find? x = some t) : u.Keeps t := by
  have hrel := he.find?_rel x
  rw [hx] at hrel
  cases hrel with
  | some halike => exact halike.left

theorem KeptIn.grows (he : e.KeptIn u) (huv : u.Grows h v) : e.KeptIn v :=
  he.imp fun _ _ hst => ⟨huv.keeps hst.left, huv.keeps hst.right, hst.key_eq⟩

theorem KeptIn.getD (he : e.KeptIn u) (ht : u.Keeps t) (x : String) : u.Keeps ((e.find? x).getD t) := by
  cases hx : e.find? x with
  | none => exact ht
  | some s => exact he.find? hx

/-- The same environments bind the same entries. -/
theorem KeptIn.find?_eq_of_same (he : e.KeptIn u) (hf : f.KeptIn u) (hs : e.same f = true) (x : String) :
    e.find? x = f.find? x := by
  have hkey := key_find?_of_same hs x
  cases hx : e.find? x with
  | none =>
    rw [hx] at hkey
    exact (Option.map_eq_none_iff.1 hkey.symm).symm
  | some t =>
    rw [hx] at hkey
    obtain ⟨s, hs, hk⟩ := Option.map_eq_some_iff.1 hkey.symm
    rw [hs, (hf.find? hs).eq_of_key_eq (he.find? hx) hk]

/-- One environment stands for another, as of a universe and as of one that comes of it. -/
theorem Mirrors.eq_of_stands {i : Env} (he : e.Mirrors u.Stands i) (hf : f.Mirrors v.Stands i)
    (huv : u.Grows h v) : e = f := by
  obtain ⟨bs⟩ := e
  obtain ⟨cs⟩ := f
  obtain ⟨is⟩ := i
  replace he : List.Forall₂ (fun b c => b.1 = c.1 ∧ u.Stands b.2 c.2) bs is := he
  replace hf : List.Forall₂ (fun b c => b.1 = c.1 ∧ v.Stands b.2 c.2) cs is := hf
  suffices hbs : bs = cs by rw [hbs]
  induction he generalizing cs with
  | nil =>
    cases hf
    rfl
  | @cons b i bs is hb _ ih =>
    obtain ⟨c, cs, hc, hcs, rfl⟩ := List.forall₂_cons_right_iff.1 hf
    have htype : b.2 = c.2 := Option.some.inj ((huv.lookup? hb.2.lookup?).symm.trans hc.2.lookup?)
    rw [Prod.ext (hb.1.trans hc.1.symm) htype, ih cs hcs]

end Env

/-! ## What a universe answers on the way -/

/-- What holds in every universe holds beside what a sound one yields. -/
theorem Universe.Yields.and_always {α : Type} {h : Hierarchy} {u : Universe} {x : InUniverse α}
    {Q : Universe → α → Prop} {R : α → Prop} (hx : u.Yields h x Q) (hR : Always x R) :
    u.Yields h x fun v a => Q v a ∧ R a := by
  intro v hv huv
  obtain ⟨hw, hvw, hq⟩ := hx v hv huv
  exact ⟨hw, hvw, hq, hR v⟩

namespace Graph.Pass

variable {h : Hierarchy} {u : Universe}

theorem yields_joinNames {envs : List Env} {fallback : String → Ty}
    (hkept : ∀ (x : String), ∀ e ∈ envs, u.Keeps ((e.find? x).getD (fallback x))) (names : List String) :
    u.Yields h (Env.joinNames envs fallback names) fun v bs => (∀ b ∈ bs, v.Keeps b.2) ∧
      ∀ x ∈ names, ∃ r, bs.lookup x = some r ∧
        v.Stands r (h.union (envs.map fun e => (e.find? x).getD (fallback x))) := by
  induction names generalizing u with
  | nil => exact .pure fun _ _ _ => by simp
  | cons name names ih =>
    rw [Env.joinNames]
    refine .of_sound fun u' hu' huu' => ?_
    have hkept' (x : String) (e : Env) (he : e ∈ envs) : u'.Keeps ((e.find? x).getD (fallback x)) :=
      huu'.keeps (hkept x e he)
    have hall : ∀ t ∈ envs.map fun e => (e.find? name).getD (fallback name), u'.Keeps t := by
      intro t ht
      obtain ⟨e, he, rfl⟩ := List.mem_map.1 ht
      exact hkept' name e he
    refine (yields_union (hu'.stands_all hall)).bind fun v r _ huv hr => ?_
    refine (ih fun x e he => huv.keeps (hkept' x e he)).bind fun w bs hw hvw hbs => .pure fun w' _ hww' => ?_
    obtain ⟨hkeeps, hbs⟩ := hbs
    refine ⟨fun b hb => hww'.keeps ?_, fun x hx => ?_⟩
    · rcases List.mem_cons.1 hb with rfl | hb
      · exact hw.keeps_of_stands (hr.grows hvw)
      · exact hkeeps b hb
    rw [List.lookup_cons]
    cases hxn : x == name with
    | true =>
      obtain rfl := eq_of_beq hxn
      exact ⟨r, rfl, hr.grows (hvw.trans hww')⟩
    | false =>
      obtain ⟨s, hs, hstands⟩ := hbs x ((List.mem_cons.1 hx).resolve_left (by simpa using hxn))
      exact ⟨s, hs, hstands.grows hww'⟩

/-- What is joined lies below the join, and below everything that the join lies below. -/
theorem yields_joinAll {envs : List Env} {fallback : String → Ty} (henvs : ∀ e ∈ envs, e.KeptIn u)
    (hfallback : ∀ x, u.Keeps (fallback x)) :
    u.Yields h (Env.joinAll envs fallback) fun v j => (∀ b ∈ j.bindings, v.Keeps b.2) ∧
      ∀ e ∈ envs, ∀ x t, e.find? x = some t → ∃ r, j.find? x = some r ∧ h.subtype t r = true ∧
        ∀ c, v.Keeps c → h.subtype r c = true → h.subtype t c = true := by
  have hkept (x : String) (e : Env) (he : e ∈ envs) : u.Keeps ((e.find? x).getD (fallback x)) :=
    (henvs e he).getD (hfallback x) x
  rw [Env.joinAll.eq_def]
  split
  · refine .pure fun v _ huv => ⟨fun b hb => huv.keeps ((henvs _ (by simp)).binding hb), fun e he x t hx => ?_⟩
    obtain rfl := List.mem_singleton.1 he
    exact ⟨t, hx, h.subtype_self t, fun _ _ => id⟩
  · refine .of_sound fun u' hu' huu' => ?_
    refine (yields_joinNames (fun x e he => huu'.keeps (hkept x e he)) _).bind fun v bs _ huv hbs => ?_
    obtain ⟨hkeeps, hbs⟩ := hbs
    refine .pure fun w hw hvw => ⟨fun b hb => hvw.keeps (hkeeps b hb), fun e he x t hx => ?_⟩
    have hmem : x ∈ e.names := Env.mem_names_iff.2 (by simp [hx])
    obtain ⟨r, hr, hstands⟩ := hbs x (Env.mem_names_ofList_flatMap.2 ⟨e, he, hmem⟩)
    have hall : ∀ s ∈ envs.map fun e => (e.find? x).getD (fallback x), w.Keeps s := by
      intro s hs
      obtain ⟨e', he', rfl⟩ := List.mem_map.1 hs
      exact (huu'.trans (huv.trans hvw)).keeps (hkept x e' he')
    have ht : t ∈ envs.map fun e => (e.find? x).getD (fallback x) := List.mem_map.2 ⟨e, he, by rw [hx]; rfl⟩
    replace hstands := hstands.grows hvw
    have hkr : w.Keeps r := hw.keeps_of_stands hstands
    have hjoin (c : Ty) (hc : w.Keeps c) : h.subtype r c = h.subtype (h.union _) c :=
      (says_subtype (hw.stands hkr) (hw.stands hc)).unique hw (says_subtype hstands (hw.stands hc))
    refine ⟨r, hr, ?_, fun c hc hrc => ?_⟩
    · exact (hw.union_subtype_iff hall hkr).1 ((hjoin r hkr).symm.trans (h.subtype_self r)) t ht
    · exact (hw.union_subtype_iff hall hc).1 ((hjoin c hc).symm.trans hrc) t ht

/-- A loop header widens its bindings as the rules say. -/
theorem says_widenBindings {declared prev : Env} {limit : Bool} {bs : List (String × Ty)}
    (hbs : ∀ b ∈ bs, u.Keeps b.2) (hprev : ∀ x t, prev.find? x = some t → u.Keeps t) :
    u.Says h (widenBindings declared prev limit bs)
      (bs.map fun b => (b.1, Env.widenedTo h declared prev limit b.1 b.2)) := by
  induction bs with
  | nil => exact .pure h u []
  | cons b bs ih =>
    obtain ⟨x, t⟩ := b
    have hrest (s : Ty) (hs : s = Env.widenedTo h declared prev limit x t) :
        u.Says h (do return (x, s) :: (← widenBindings declared prev limit bs))
          (((x, t) :: bs).map fun b => (b.1, Env.widenedTo h declared prev limit b.1 b.2)) := by
      subst hs
      exact Says.bind (ih fun b hb => hbs b (by simp [hb])) (Says.pure h u _)
    rw [widenBindings]
    cases hx : prev.find? x with
    | none => exact hrest _ (by rw [Env.widenedTo, hx])
    | some old =>
      have hsubtype : u.Says h (TypeStore.subtype t old) (h.subtype t old) := Yields.of_sound fun v hv huv =>
        says_subtype (hv.stands (huv.keeps (hbs (x, t) (by simp)))) (hv.stands (huv.keeps (hprev x old hx)))
      refine hsubtype.bind ?_
      cases hs : h.subtype t old with
      | true => exact hrest old (by simp [Env.widenedTo, hx, hs])
      | false => exact hrest _ (by simp [Env.widenedTo, hx, hs])

/-- The environment in which a function is entered is that of the rules. -/
theorem yields_entryEnv {ps : List (Param Ty)} (hps : ∀ p ∈ ps, u.Keeps p.type) {e i : Env}
    (he : e.Mirrors u.Stands i) :
    u.Yields h (entryEnv ps e) fun v r => r.Mirrors v.Stands (entryEnv ps i : Ideal h Env).run := by
  have hgrow {v w : Universe} (hvw : v.Grows h w) {e i : Env} (he : e.Mirrors v.Stands i) : e.Mirrors w.Stands i :=
    he.imp fun _ _ hst => hst.grows hvw
  induction ps generalizing u e i with
  | nil => exact .pure fun _ _ huv => hgrow huv he
  | cons p ps ih =>
    refine .of_sound fun v hv huv => ?_
    have htype := hv.stands (huv.keeps (hps p (by simp)))
    have hrest {w : Universe} (hvw : v.Grows h w) {s t : Ty} (hst : w.Stands s t) :
        w.Yields h (entryEnv ps (e.bind p.name s)) fun w r =>
          r.Mirrors w.Stands (entryEnv ps (i.bind p.name t) : Ideal h Env).run :=
      ih (fun q hq => (huv.trans hvw).keeps (hps q (by simp [hq])))
        ((hgrow (huv.trans hvw) he).bind_rel p.name hst)
    rw [entryEnv, entryEnv]
    dsimp only
    rw [Ideal.run_ite]
    split
    · rw [Ideal.run_bind, Ideal.run_union]
      refine (yields_union (.cons htype (.cons (stands_atom hv (by simp [atoms])) .nil))).bind ?_
      exact fun w _ _ hvw hst => hrest hvw hst
    · exact hrest (.refl h v) htype

/-! ## Moments whose types are entries -/

/-- A moment in a sound universe that keeps all types of the pass and of its plan. -/
structure Kept (h : Hierarchy) (plan : Plan) (p : Moment) : Prop where
  sound : p.store.Sound h
  proper : h.Proper
  plan : plan.Mirrors (Twins.mk p.store p.store).Alike plan
  pass : p.toPass.Mirrors (Twins.mk p.store p.store).Alike p.toPass

variable {g : Graph} {s : Surroundings} {limit : Nat} {plan : Plan} {p q : Moment} {id : Nat} {env : Env}

theorem kept_start (hu : u.Sound h) (hproper : h.Proper) (htypes : ∀ t ∈ g.types ++ s.types, u.Keeps t) :
    Kept h (g.plan s limit) (.start g u) := by
  have hself (t) (ht : t ∈ g.types ++ s.types) : (Twins.mk u u).Alike t t := ⟨htypes t ht, htypes t ht, rfl⟩
  have hg := g.mirrors_self fun t ht => hself t (List.mem_append_left _ ht)
  have hs := s.mirrors_self fun t ht => hself t (List.mem_append_right _ ht)
  exact ⟨hu, hproper, hg.plan_rel hs limit, .start hg⟩

namespace Kept

theorem twins (hp : Kept h plan p) : (Twins.mk p.store p.store).Sound := by
  have hu := hp.sound
  have hproper := hp.proper
  obtain rfl := hu.classes_eq
  exact hu.twins hproper

theorem of_twins {v : Universe} (hp : Kept h plan p) (hw : (Twins.mk v v).Sound)
    (hgrows : (Twins.mk p.store p.store).Grows ⟨v, v⟩) : v.Sound h ∧ p.store.Grows h v := by
  have hclasses := hp.sound.classes_eq
  exact ⟨hclasses ▸ hgrows.left_classes ▸ hw.left, hclasses ▸ hgrows.left⟩

theorem entered (hp : Kept h plan p) (he : p.entered[id]? = some env) : env.KeptIn p.store := by
  have hrel := hp.pass.entered id
  rw [he] at hrel
  cases hrel with
  | some henv => exact henv

theorem edge (hp : Kept h plan p) {edge : Nat × Nat} (he : p.edges[edge]? = some env) : env.KeptIn p.store := by
  have hrel := hp.pass.edges edge
  rw [he] at hrel
  cases hrel with
  | some henv => exact henv

theorem keeps_unbound (hp : Kept h plan p) (x : String) : p.store.Keeps (unbound p.declared x) :=
  Env.KeptIn.getD hp.pass.declared (hp.sound.atom (by simp [atoms])) x

theorem keeps_params (hp : Kept h plan p) : ∀ x ∈ plan.graph.params, p.store.Keeps x.type := by
  intro x hx
  obtain ⟨y, -, hxy⟩ := exists_mem_right hp.plan.graph.params hx
  exact hxy.type.left

/-- A step keeps the types of the pass. -/
theorem step (hp : Kept h plan p) (hs : p.step plan = some q) : Kept h plan q ∧ p.store.Grows h q.store := by
  obtain ⟨hw, hgrows, hrel⟩ := Twins.agree_step hp.plan hp.pass _ hp.twins (.refl _)
  obtain ⟨q', hq', rfl⟩ := Option.map_eq_some_iff.1 hs
  dsimp only at hrel
  rw [hq'] at hrel
  obtain ⟨hsound, hgrow⟩ := hp.of_twins hw hgrows
  cases hrel with
  | some hpass => exact ⟨⟨hsound, hp.proper, Twins.plan_grows hp.plan hgrows, hpass⟩, hgrow⟩

/-- Every moment of a run keeps the types of the pass. -/
theorem of_reached (hp : Kept h plan p) (hr : Reached plan p q) : Kept h plan q ∧ p.store.Grows h q.store := by
  induction hr with
  | start => exact ⟨hp, .refl h _⟩
  | step _ hs ih =>
    obtain ⟨hq, hpq⟩ := ih
    obtain ⟨hr, hqr⟩ := hq.step hs
    exact ⟨hr, hpq.trans hqr⟩

/-- The environment in which a node would be entered. -/
theorem arrival (hp : Kept h plan p) (id : Nat) :
    (p.arrived plan id).Sound h ∧ p.store.Grows h (p.arrived plan id) ∧
      ∀ env, p.arrival plan id = some env → env.KeptIn (p.arrived plan id) := by
  obtain ⟨hw, hgrows, hrel⟩ := Twins.agree_arriving hp.plan hp.pass id _ hp.twins (.refl _)
  obtain ⟨hsound, hgrow⟩ := hp.of_twins hw hgrows
  refine ⟨hsound, hgrow, fun env ha => ?_⟩
  dsimp only at hrel
  rw [show ((p.arriving plan id).run p.store).1 = some env from ha] at hrel
  cases hrel with
  | some henv => exact henv

/-- A node that is entered keeps the types of what leaves it. -/
theorem enters (hp : Kept h plan p) {n : Node} (he : Enters plan p id n env q) :
    (p.arrived plan id).Grows h q.store ∧
      ∀ out, some out ∈ (p.outcome plan id n env).outs → out.KeptIn q.store := by
  obtain ⟨hw, hgrows, hrel⟩ := Twins.agree_arriving hp.plan hp.pass id _ hp.twins (.refl _)
  dsimp only at hrel
  rw [show ((p.arriving plan id).run p.store).1 = some env from he.arrives] at hrel
  have hop : n.op.Mirrors (Twins.mk p.store p.store).Alike n.op := by
    have hnode := hp.plan.graph.node_rel id
    rw [he.node] at hnode
    cases hnode with
    | some hn => exact hn.op
  cases hrel with
  | some henv =>
    have hplan := Twins.plan_grows hp.plan hgrows
    obtain ⟨-, hleft, houtcome⟩ := Twins.agree_transfer hplan.surroundings hplan.graph.returns
      (Twins.env_grows hp.pass.declared hgrows) (hop.imp fun _ _ hst => hst.grows hgrows) henv _ hw (.refl _)
    rw [he.store]
    refine ⟨?_, fun out ho => ?_⟩
    · have hclasses := hgrows.left_classes.trans hp.sound.classes_eq
      exact hclasses ▸ hleft.left
    · obtain ⟨k, hk⟩ := List.mem_iff_getElem?.1 ho
      have hslot : Option.Rel (Option.Rel (Env.Mirrors
          (Twins.mk (p.left plan id n env) (p.left plan id n env)).Alike))
          (p.outcome plan id n env).outs[k]? (p.outcome plan id n env).outs[k]? :=
        optionRel_getElem? houtcome.outs k
      rw [hk] at hslot
      cases hslot with
      | some hout =>
        cases hout with
        | some hout => exact hout

end Kept
end Graph.Pass
end FlowTyping
