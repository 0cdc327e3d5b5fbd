import FlowTyping.Proofs.Flow.History
import FlowTyping.Proofs.Flow.Lockstep
import FlowTyping.Proofs.Flow.Step
import FlowTyping.Proofs.Flow.Written
import FlowTyping.Proofs.Guard.Kept
import FlowTyping.Proofs.Relation.Careful
import FlowTyping.Proofs.Signature.Kept
import FlowTyping.Proofs.Store.Matched
import FlowTyping.Proofs.Store.Session

/-!
# What may have been done with a universe

Whatever is done with a universe, it keeps coherent. Names may be any texts: two types may then have one key,
and the answers about them may be mixed up. A bare declaration may make a remembered answer wrong. None of this
touches what a universe knows of lucid types. An operation gives its question as many steps as the question takes
in order, and a question that runs out of them leaves no trace, so between operations no question is under way.
A pass does nothing but ask the universe.

* **`Regime.Serving.steps`** — whatever can be relied on in the universe, the environments of a pass bind entries
  after any number of steps; **`Regime.Serving.transfer`** says so of a node.
* **`Universe.serving_coherent`** — coherent universes stay coherent. **`Tracks.bounded`** says of a whole operation
  what is known of its question while it is followed.
* **`Universe.yields_intersect_members`** — the members of a lucid intersection that is kept are put together
  again as that intersection.
* **`Universe.Arises`** — the universes that come of a new one by calls of its operations, by declarations of
  classes of either kind, by passes over bodies, and by taking over types of other universes.
* **`Universe.Arises.coherent`** — they are coherent, and between operations no question is under way.
* **`Universe.History.arises`** — the universes whose names are words and whose memory is right are among them.
-/

namespace FlowTyping

open Ty Universe

variable {R : Regime} {u v : Universe} {t : Ty}

/-- Variables are bound to entries. -/
def Env.HeldIn (e : Env) (u : Universe) : Prop := ∀ t ∈ e.types, u.Keeps t

namespace Env.HeldIn

variable {e : Env} {x : String}

theorem grows (he : e.HeldIn u) (huv : R.Grows u v) : e.HeldIn v := fun t ht => R.keeps huv (he t ht)

theorem find? (he : e.HeldIn u) (ht : e.find? x = some t) : u.Keeps t := he t (mem_types_of_find? ht)

theorem empty : Env.HeldIn {} u := by simp [HeldIn, types]

theorem bind (he : e.HeldIn u) (ht : u.Keeps t) : (e.bind x t).HeldIn u := by
  obtain ⟨bs⟩ := e
  intro s hs
  obtain ⟨b, hb, rfl⟩ := List.mem_map.1 hs
  replace hb : b ∈ insertBinding x t bs := hb
  replace he : ∀ b ∈ bs, u.Keeps b.2 := fun b hb => he _ (List.mem_map_of_mem hb)
  clear hs
  induction bs with
  | nil => exact (List.mem_singleton.1 hb) ▸ ht
  | cons c bs ih =>
    have hrest (b) (hb : b ∈ bs) : u.Keeps b.2 := he b (by simp [hb])
    rw [insertBinding] at hb
    split at hb
    · rcases List.mem_cons.1 hb with rfl | hb
      · exact ht
      · exact he b hb
    split at hb
    · rcases List.mem_cons.1 hb with rfl | hb
      · exact ht
      · exact hrest b hb
    · rcases List.mem_cons.1 hb with rfl | hb
      · exact he _ (by simp)
      · exact ih hb hrest

theorem getD (he : e.HeldIn u) (ht : u.Keeps t) (x : String) : u.Keeps ((e.find? x).getD t) := by
  cases hx : e.find? x with
  | none => exact ht
  | some s => exact he.find? hx

/-- What a variable has where it is not bound is an entry. -/
theorem unbound (he : e.HeldIn u) (hu : R.Holds u) (x : String) : u.Keeps (Graph.unbound e x) :=
  he.getD (R.atom hu (by simp [atoms])) x

end Env.HeldIn

/-- What leaves a node binds entries. -/
structure Outcome.HeldIn (o : Outcome) (u : Universe) : Prop where
  outs : ∀ out ∈ o.outs, ∀ env ∈ out, env.HeldIn u
  declared : o.declared.HeldIn u

/-- All environments of a pass bind entries. -/
structure Graph.Pass.HeldIn (p : Graph.Pass) (u : Universe) : Prop where
  entered : ∀ {id : Nat} {env : Env}, p.entered[id]? = some env → env.HeldIn u
  edge : ∀ {edge : Nat × Nat} {env : Env}, p.edges[edge]? = some env → env.HeldIn u
  declared : p.declared.HeldIn u

namespace Universe.Regime.Serving

open FlowTyping.Graph FlowTyping.Graph.Pass

variable (hR : R.Serving) {s : Surroundings} {declared env : Env}

include hR

/-! ## Nodes -/

theorem varType (hs : ∀ t ∈ s.types, u.Keeps t) (hdeclared : declared.HeldIn u) (henv : env.HeldIn u) (name : String) :
    R.Answers u (varType s declared env name) := by
  have hunknown : R.Answers u (pure .unknown) := .pure fun v hv _ => R.atom hv (by simp [atoms])
  rw [Graph.varType]
  split
  · exact .pure fun _ _ huv => R.keeps huv (henv.find? ‹_›)
  split
  · exact .pure fun _ _ huv => R.keeps huv (hdeclared.find? ‹_›)
  split
  · rename_i set hset
    split
    · rename_i sig sigs _ hsigs
      have hsig : sig.KeptIn u := by
        obtain ⟨before, after, hcatalogue, -⟩ := List.lookup_eq_some_iff.1 hset
        refine fun t ht => hs t (List.mem_append_left _ (List.mem_flatMap.2 ⟨(name, set), ?_, ?_⟩))
        · simp [hcatalogue]
        · exact List.mem_flatMap.2 ⟨sig, by simp [hsigs], ht⟩
      exact hR.function (fun p hp => hsig.param hp) hsig.ret
    · exact hunknown
  · exact hunknown

theorem valueType (hs : ∀ t ∈ s.types, u.Keeps t) (hdeclared : declared.HeldIn u) (henv : env.HeldIn u) {x : Value}
    (hx : ∀ t ∈ x.types, u.Keeps t) : R.Answers u (valueType s declared env x) := by
  cases x with
  | const t => exact .pure fun _ _ huv => R.keeps huv (hx t (by simp [Value.types]))
  | var name => exact hR.varType hs hdeclared henv name
  | field owner prop =>
    rw [Graph.valueType]
    refine (hR.varType hs hdeclared henv owner).bind fun v base _ _ hbase => ?_
    refine (hR.propertyOf prop hbase).bind fun w found _ _ hfound => ?_
    cases found with
    | none => exact .pure fun _ hv _ => R.atom hv (by simp [atoms])
    | some p => exact hR.present p.optional (hfound p rfl)

theorem assign (hdeclared : declared.HeldIn u) (henv : env.HeldIn u) (name : String) (ht : u.Keeps t) (infers : Bool) :
    R.Yields u (assign declared env name t infers) fun v r => r.1.HeldIn v ∧ r.2.1.HeldIn v := by
  -- a variable without a declared type takes any value; one that has one takes it or the part of the value within it
  have hfree {v : Universe} {declared : Env} (huv : R.Grows u v) (hdeclared : declared.HeldIn v) :
      R.Yields v (pure (env.bind name t, declared, ([] : List Finding)))
        fun v r => r.1.HeldIn v ∧ r.2.1.HeldIn v :=
    .pure fun _ _ h => ⟨((henv.grows huv).bind (R.keeps huv ht)).grows h, hdeclared.grows h⟩
  have hbound {v : Universe} {declared : Env} {d : Ty} (huv : R.Grows u v) (hdeclared : declared.HeldIn v)
      (hd : v.Keeps d) :
      R.Yields v (do
        if ← TypeStore.subtype t d then return (env.bind name (← TypeStore.meet t d), declared, ([] : List Finding))
        else return (env.bind name d, declared, [.assignability name t d]))
        fun v r => r.1.HeldIn v ∧ r.2.1.HeldIn v := by
    have henv := henv.grows huv
    have ht := R.keeps huv ht
    refine (hR.subtype ht hd).bind fun w within _ hvw _ => ?_
    split
    · refine (hR.intersect_two (R.keeps hvw ht) (R.keeps hvw hd)).bind
        fun w' met _ hww' hmet => .pure fun _ _ h => ?_
      have hgrown := R.trans hvw hww'
      exact ⟨((henv.grows hgrown).bind hmet).grows h, hdeclared.grows (R.trans hgrown h)⟩
    · exact .pure fun _ _ h => ⟨((henv.grows hvw).bind (R.keeps hvw hd)).grows h, hdeclared.grows (R.trans hvw h)⟩
  rw [Graph.assign]
  dsimp only
  split
  · refine (hR.widenAll ht).bind fun v d _ huv hd => ?_
    split
    · rename_i old hold
      have hold := R.keeps huv (hdeclared.find? hold)
      refine (hR.union_two hold hd).bind fun w joined _ hvw hjoined => ?_
      have hgrown := R.trans huv hvw
      have hdeclared : (declared.bind name joined).HeldIn w := (hdeclared.grows hgrown).bind hjoined
      rw [pure_bind]
      split
      · exact hfree hgrown hdeclared
      · exact hbound hgrown hdeclared (hdeclared.find? ‹_›)
    · have hdeclared : (declared.bind name d).HeldIn v := (hdeclared.grows huv).bind hd
      rw [pure_bind]
      split
      · exact hfree huv hdeclared
      · exact hbound huv hdeclared (hdeclared.find? ‹_›)
  · rw [pure_bind]
    split
    · exact hfree (R.refl u) hdeclared
    · exact hbound (R.refl u) hdeclared (hdeclared.find? ‹_›)

omit hR in
/-- What a name calls is a variable of function type or a function of the catalogue, and made of entries. -/
theorem signatures_keptIn (hu : R.Holds u) (hs : ∀ t ∈ s.types, u.Keeps t) (henv : env.HeldIn u) {name : String}
    {set : OverloadSet} (hset : callee? s env name = some set) : ∀ sig ∈ set.signatures, sig.KeptIn u := by
  intro sig hsig t ht
  have hcatalogue (hlookup : s.catalogue.lookup name = some set) : u.Keeps t := by
    obtain ⟨before, after, hcatalogue, -⟩ := List.lookup_eq_some_iff.1 hlookup
    refine hs t (List.mem_append_left _ (List.mem_flatMap.2 ⟨(name, set), by simp [hcatalogue], ?_⟩))
    exact List.mem_flatMap.2 ⟨sig, by simp [hsig], ht⟩
  unfold callee? at hset
  split at hset
  · rename_i params ret hfind
    obtain rfl := Option.some.inj hset
    obtain rfl := List.mem_singleton.1 hsig
    exact R.part hu (henv.find? hfind) t (by simpa [Signature.types, parts] using ht)
  · exact hcatalogue hset

theorem resolveCall (hs : ∀ t ∈ s.types, u.Keeps t) (hdeclared : declared.HeldIn u) (henv : env.HeldIn u)
    {site : CallSite} (hargs : ∀ x ∈ site.args, ∀ t ∈ x.types, u.Keeps t) (hexplicit : ∀ t ∈ site.typeArgs, u.Keeps t) :
    R.Yields u (resolveCall s declared env site) fun v result => v.Keeps result.ret := by
  rw [Graph.resolveCall]
  refine (Yields.mapM (P := fun v _ t => v.Keeps t) R.keeps fun x hx =>
    hR.valueType hs hdeclared henv (hargs x hx)).bind fun v args _ huv hargs => ?_
  replace hargs (t) (ht : t ∈ args) : v.Keeps t := by
    obtain ⟨_, -, h⟩ := exists_mem_left hargs ht
    exact h
  split
  · rename_i set hset
    refine .of_holds fun w hw hvw => ?_
    have huw := R.trans huv hvw
    exact hR.resolve (signatures_keptIn hw (fun t ht => R.keeps huw (hs t ht)) (henv.grows huw) hset)
      (fun t ht => R.keeps hvw (hargs t ht)) fun t ht => R.keeps huw (hexplicit t ht)
  · exact .pure fun _ hv _ => R.atom hv (by simp [atoms])

theorem checkReturn {returns : Option Ty} (hreturns : ∀ t ∈ returns, u.Keeps t) (ht : u.Keeps t) :
    R.Yields u (checkReturn returns t) fun _ _ => True := by
  rw [Graph.checkReturn.eq_def]
  split
  · exact .pure fun _ _ _ => trivial
  · rename_i r
    refine (hR.subtype ht (hreturns r rfl)).bind fun _ within _ _ _ => ?_
    split <;> exact .pure fun _ _ _ => trivial

omit hR in
theorem narrowed_heldIn {name : String} (henv : env.HeldIn u) (ht : u.Keeps t) :
    ∀ e ∈ narrowed env name t, e.HeldIn u := by
  unfold narrowed
  split
  · simp
  · intro e he
    exact Option.some.inj he ▸ henv.bind ht

/-- **What leaves a node binds entries** if what enters it does. -/
theorem transfer (hwords : ∀ name, R.Word name) (hs : ∀ t ∈ s.types, u.Keeps t) {returns : Option Ty}
    (hreturns : ∀ t ∈ returns, u.Keeps t) (hdeclared : declared.HeldIn u) (henv : env.HeldIn u) {op : Op}
    (hop : ∀ t ∈ op.types, u.Keeps t) :
    R.Yields u (transfer s returns declared op env) fun v o => Outcome.HeldIn o v := by
  have hpreds : ∀ t ∈ s.preds.types, u.Keeps t := fun t ht => hs t (List.mem_append_right _ ht)
  have hundefined (v : Universe) (hv : R.Holds v) : v.Keeps .undefined := R.atom hv (by simp [atoms])
  cases op with
  | entry | merge => exact .pure fun _ _ h => ⟨by simpa using henv.grows h, hdeclared.grows h⟩
  | assign name value declare ascribed =>
    rw [Graph.transfer]
    refine (hR.valueType hs hdeclared henv fun t ht => hop t (List.mem_append_left _ ht)).bind fun v t _ huv ht => ?_
    refine (hR.assign (hdeclared.grows huv) (henv.grows huv) name ht _).bind fun w r _ _ hr => ?_
    obtain ⟨env', declared', findings⟩ := r
    exact .pure fun _ _ h => ⟨by simpa using hr.1.grows h, hr.2.grows h⟩
  | call site =>
    rw [Graph.transfer]
    refine (hR.resolveCall hs hdeclared henv
      (fun x hx t ht => hop t (List.mem_append_left _ (List.mem_flatMap.2 ⟨x, hx, ht⟩)))
      fun t ht => hop t (List.mem_append_right _ ht)).bind fun v result _ huv hresult => ?_
    split
    · exact .pure fun _ _ h => ⟨by simpa using henv.grows (R.trans huv h), hdeclared.grows (R.trans huv h)⟩
    · rename_i name _
      refine (hR.assign (hdeclared.grows huv) (henv.grows huv) name hresult _).bind fun w r _ _ hr => ?_
      obtain ⟨env', declared', findings⟩ := r
      exact .pure fun _ _ h => ⟨by simpa using hr.1.grows h, hr.2.grows h⟩
  | branch guard =>
    cases guard with
    | none => exact .pure fun _ _ h => ⟨by simpa using henv.grows h, hdeclared.grows h⟩
    | some g =>
      rw [Graph.transfer]
      refine .of_holds fun v hv huv => ?_
      have hcurrent : v.Keeps ((env.find? g.target).getD (unbound declared g.target)) :=
        (henv.grows huv).getD ((hdeclared.grows huv).unbound hv g.target) g.target
      refine (hR.narrow hwords (fun t ht => R.keeps huv (hpreds t ht)) ?_ (fun t ht => R.keeps huv (hop t ht))
        hcurrent).bind fun w split _ hvw hsplit => .pure fun w' _ hww' => ?_
      · rintro _ ⟨⟩ x t ht
        exact R.keeps huv (henv.find? ht)
      · have henv := henv.grows (R.trans huv (R.trans hvw hww'))
        refine ⟨fun out hout => ?_, hdeclared.grows (R.trans huv (R.trans hvw hww'))⟩
        rcases (by simpa using hout) with rfl | rfl
        · exact narrowed_heldIn henv (R.keeps hww' hsplit.1)
        · exact narrowed_heldIn henv (R.keeps hww' hsplit.2)
  | switch site =>
    rw [Graph.transfer]
    refine .of_holds fun v hv huv => ?_
    have hsubject : v.Keeps ((env.find? site.var).getD (unbound declared site.var)) :=
      (henv.grows huv).getD ((hdeclared.grows huv).unbound hv site.var) site.var
    refine (hR.splitCases hwords (fun t ht => R.keeps huv (hpreds t ht)) site.prop hsubject
      fun t ht => R.keeps huv (hop t ht)).bind fun w split _ hvw hsplit => .pure fun w' _ hww' => ?_
    have henv := henv.grows (R.trans huv (R.trans hvw hww'))
    refine ⟨fun out hout => ?_, hdeclared.grows (R.trans huv (R.trans hvw hww'))⟩
    rcases List.mem_append.1 hout with hout | hout
    · obtain ⟨t, ht, rfl⟩ := List.mem_map.1 hout
      exact narrowed_heldIn henv (R.keeps hww' (hsplit t (by simp [ht])))
    · obtain rfl := List.mem_singleton.1 hout
      exact narrowed_heldIn henv (R.keeps hww' (hsplit _ (by simp)))
  | ret value =>
    have hrest {v : Universe} {t : Ty} (huv : R.Grows u v) (ht : v.Keeps t) :
        R.Yields v (do return { outs := [], declared, findings := ← Graph.checkReturn returns t })
          fun v o => Outcome.HeldIn o v :=
      (hR.checkReturn (fun t ht => R.keeps huv (hreturns t ht)) ht).bind fun w _ _ hvw _ =>
        .pure fun _ _ h => ⟨by simp, hdeclared.grows (R.trans huv (R.trans hvw h))⟩
    rw [Graph.transfer.eq_def]
    cases value with
    | some x =>
      have hx : ∀ t ∈ x.types, u.Keeps t := fun t ht => hop t (by simpa [Op.types] using ht)
      exact (hR.valueType hs hdeclared henv hx).bind fun v t _ huv ht => hrest huv ht
    | none =>
      have hvalue : R.Answers u (pure .undefined) := .pure fun v hv _ => hundefined v hv
      exact hvalue.bind fun v t _ huv ht => hrest huv ht
  | exit =>
    rw [Graph.transfer]
    refine .of_holds fun v hv huv => ?_
    exact (hR.checkReturn (fun t ht => R.keeps huv (hreturns t ht)) (hundefined v hv)).bind fun w _ _ hvw _ =>
      .pure fun _ _ h => ⟨by simp, hdeclared.grows (R.trans huv (R.trans hvw h))⟩
  | throw value => exact .pure fun _ _ h => ⟨by simp, hdeclared.grows h⟩
  | other kind => exact .pure fun _ _ h => ⟨by simp, hdeclared.grows h⟩

/-! ## Steps -/

theorem joinAll {envs : List Env} {fallback : String → Ty} (henvs : ∀ e ∈ envs, e.HeldIn u)
    (hfallback : ∀ x, u.Keeps (fallback x)) : R.Yields u (Env.joinAll envs fallback) fun v e => e.HeldIn v := by
  -- by induction on the names, since each name is joined in the universe that the one before it leaves
  have hnames {u : Universe} (names : List String) (henvs : ∀ e ∈ envs, e.HeldIn u)
      (hfallback : ∀ x, u.Keeps (fallback x)) :
      R.Yields u (Env.joinNames envs fallback names) fun v bs => ∀ b ∈ bs, v.Keeps b.2 := by
    induction names generalizing u with
    | nil => exact .pure fun _ _ _ => by simp
    | cons name names ih =>
      rw [Env.joinNames]
      have hbound : ∀ t ∈ envs.map fun e => (e.find? name).getD (fallback name), u.Keeps t :=
        List.forall_mem_map.2 fun e he => (henvs e he).getD (hfallback name) name
      refine (hR.union hbound).bind fun v t _ huv ht => ?_
      refine (ih (fun e he => (henvs e he).grows huv) fun x => R.keeps huv (hfallback x)).bind
        fun w bs _ hvw hbs => .pure fun w' _ hww' b hb => R.keeps hww' ?_
      rcases List.mem_cons.1 hb with rfl | hb
      · exact R.keeps hvw ht
      · exact hbs b hb
  rw [Env.joinAll.eq_def]
  split
  · exact .pure fun _ _ huv => (henvs _ (by simp)).grows huv
  · refine (hnames _ henvs hfallback).bind fun v bs _ _ hbs => .pure fun w _ hvw t ht => ?_
    obtain ⟨b, hb, rfl⟩ := List.mem_map.1 ht
    exact R.keeps hvw (hbs b hb)

theorem widenBindings {prev : Env} (hdeclared : declared.HeldIn u) (hprev : prev.HeldIn u) (limit : Bool)
    {bs : List (String × Ty)} (hbs : ∀ b ∈ bs, u.Keeps b.2) :
    R.Yields u (Pass.widenBindings declared prev limit bs) fun v bs => ∀ b ∈ bs, v.Keeps b.2 := by
  induction bs generalizing u with
  | nil => exact .pure fun _ _ _ => by simp
  | cons b bs ih =>
    obtain ⟨name, t⟩ := b
    have ht := hbs (name, t) (by simp)
    -- what `prev` bound stays where it covers the new type; past the limit the declared type takes its place
    have hrest {v : Universe} (huv : R.Grows u v) (covered : Option Ty) (hcovered : ∀ s ∈ covered, v.Keeps s) :
        R.Yields v (do
          let t := match covered with
            | some old => old
            | none => if limit then (declared.find? name).getD .unknown else t
          return (name, t) :: (← Pass.widenBindings declared prev limit bs)) fun v bs => ∀ b ∈ bs, v.Keeps b.2 := by
      refine (ih (hdeclared.grows huv) (hprev.grows huv) fun b hb => R.keeps huv (hbs b (by simp [hb]))).bind
        fun w bs _ hvw hbs => .pure fun w' hw' hww' b hb => ?_
      rcases List.mem_cons.1 hb with rfl | hb
      · have hgrown := R.trans hvw hww'
        cases covered with
        | some old => exact R.keeps hgrown (hcovered old rfl)
        | none =>
          dsimp only
          split
          · exact (hdeclared.grows (R.trans huv hgrown)).getD (R.atom hw' (by simp [atoms])) name
          · exact R.keeps (R.trans huv hgrown) ht
      · exact R.keeps hww' (hbs b hb)
    rw [Pass.widenBindings]
    simp only [pure_bind]
    split
    · rename_i old hold
      have hold := hprev.find? hold
      refine (hR.subtype ht hold).bind fun v within _ huv _ => ?_
      split
      · exact hrest huv (some old) (by simpa using R.keeps huv hold)
      · exact hrest huv none (by simp)
    · exact hrest (R.refl u) none (by simp)

theorem entryEnv {ps : List (Param Ty)} (hps : ∀ p ∈ ps, u.Keeps p.type) (henv : env.HeldIn u) :
    R.Yields u (Pass.entryEnv ps env) fun v e => e.HeldIn v := by
  induction ps generalizing u env with
  | nil => exact .pure fun _ _ huv => henv.grows huv
  | cons p ps ih =>
    rw [Pass.entryEnv]
    dsimp only
    exact (hR.present (p.optional && !p.rest) (hps p (by simp))).ite_bind fun v t _ huv ht =>
      ih (fun q hq => R.keeps huv (hps q (by simp [hq]))) ((henv.grows huv).bind ht)

variable {p : Pass} {plan : Plan}

theorem arriving (hp : p.HeldIn u) (hparams : ∀ x ∈ plan.graph.params, u.Keeps x.type) (id : Nat) :
    R.Yields u (p.arriving plan id) fun v found => ∀ e ∈ found, e.HeldIn v := by
  -- the entry is entered with its parameters, any other node with the join of what is live into it
  have hincoming : R.Yields u (p.incoming plan.graph id) fun v found => ∀ e ∈ found, e.HeldIn v := by
    rw [Pass.incoming]
    split
    · refine (hR.entryEnv hparams .empty).bind fun v e _ _ he => .pure fun w _ hvw e' he' => ?_
      exact Option.some.inj he' ▸ he.grows hvw
    · split
      · exact .pure fun _ _ _ => by simp
      · rename_i hlive
        refine .of_holds fun v hv huv => ?_
        refine (hR.joinAll (fun e he => ?_) fun x => (hp.declared.grows huv).unbound hv x).bind
          fun w e _ _ he => .pure fun w' _ hww' e' he' => Option.some.inj he' ▸ he.grows hww'
        obtain ⟨n, k, -, hedge⟩ := mem_liveInto.1 he
        exact (hp.edge hedge).grows huv
  rw [Pass.arriving]
  refine hincoming.bind fun v found _ huv hfound => ?_
  cases found with
  | none => exact .pure fun _ _ _ => by simp
  | some env =>
    have henv := hfound env rfl
    have hsame : R.Yields v (pure (some env)) fun v found => ∀ e ∈ found, e.HeldIn v :=
      .pure fun _ _ hvw e he => Option.some.inj he ▸ henv.grows hvw
    dsimp only
    split
    · rename_i old hold
      split
      · refine (hR.widenBindings (hp.declared.grows huv) ((hp.entered hold).grows huv) _ fun b hb =>
          henv _ (List.mem_map_of_mem hb)).bind fun w bs _ _ hbs => .pure fun w' _ hww' e he => ?_
        obtain rfl := Option.some.inj he
        intro t ht
        obtain ⟨b, hb, rfl⟩ := List.mem_map.1 ht
        exact R.keeps hww' (hbs b hb)
      · exact hsame
    · exact hsame

omit hR in
theorem heldIn_grows (hp : p.HeldIn u) (huv : R.Grows u v) : p.HeldIn v :=
  ⟨fun he => (hp.entered he).grows huv, fun he => (hp.edge he).grows huv, hp.declared.grows huv⟩

omit hR in
theorem heldIn_noted {old out : Option Env} {env : Env} (hold : ∀ e ∈ old, e.HeldIn u) (hout : ∀ e ∈ out, e.HeldIn u)
    (hnoted : noted old out = some env) : env.HeldIn u := by
  unfold noted at hnoted
  split at hnoted
  · cases hnoted
  · exact Option.some.inj hnoted ▸ hout _ rfl
  · split at hnoted
    · exact Option.some.inj hnoted ▸ hold _ rfl
    · exact Option.some.inj hnoted ▸ hout _ rfl

omit hR in
theorem heldIn_record (hp : p.HeldIn u) {o : Outcome} (ho : o.HeldIn u) {env : Env} (henv : env.HeldIn u) (id : Nat)
    (succs : List Nat) : (p.record id succs env o).HeldIn u where
  entered {id' env'} he := by
    rw [record_entered, Std.HashMap.getElem?_insert] at he
    split at he
    · exact Option.some.inj he ▸ henv
    · exact hp.entered he
  edge {edge env'} he := by
    obtain ⟨n, k⟩ := edge
    rw [record_edges] at he
    split at he
    · refine heldIn_noted (fun e he => hp.edge he) (fun e he => ?_) he
      cases hout : o.outs[k]? with
      | none => simp [hout] at he
      | some out => exact ho.outs out (List.mem_of_getElem? hout) e (by simpa [hout] using he)
    · exact hp.edge he
  declared := by
    rw [record_declared]
    exact ho.declared

theorem visit (hwords : ∀ name, R.Word name) (hp : p.HeldIn u)
    (htypes : ∀ t ∈ plan.graph.types ++ plan.surroundings.types, u.Keeps t) (id : Nat) :
    R.Yields u (p.visit plan id) fun v p => p.HeldIn v := by
  have hsame {v : Universe} (huv : R.Grows u v) : R.Yields v (pure p) fun v p => p.HeldIn v :=
    .pure fun _ _ hvw => heldIn_grows hp (R.trans huv hvw)
  have hgraph {t : Ty} (ht : t ∈ plan.graph.types) : u.Keeps t := htypes t (List.mem_append_left _ ht)
  rw [visit_eq]
  split
  · exact hsame (R.refl u)
  rename_i n hn
  refine (hR.arriving hp (fun x hx => hgraph ?_) id).bind fun v found _ huv hfound => ?_
  · simp only [Graph.types, List.mem_append, List.mem_map]
    exact .inl (.inl (.inl ⟨x, hx, rfl⟩))
  cases found with
  | none => exact hsame huv
  | some env =>
    have henv := hfound env rfl
    dsimp only
    split
    · exact hsame huv
    refine (hR.transfer hwords (fun t ht => R.keeps huv (htypes t (List.mem_append_right _ ht)))
      (fun t ht => R.keeps huv (hgraph ?_)) (hp.declared.grows huv) henv
      fun t ht => R.keeps huv (hgraph ?_)).bind fun w o _ hvw ho => .pure fun w' _ hww' => ?_
    · simp only [Graph.types, List.mem_append]
      exact .inl (.inl (.inr (Option.mem_toList.2 ht)))
    · simp only [Graph.types, List.mem_append, List.mem_flatMap]
      exact .inr ⟨n, by simpa using Array.mem_of_getElem? hn, ht⟩
    · exact heldIn_grows (heldIn_record (heldIn_grows hp (R.trans huv hvw)) ho (henv.grows hvw) id n.succs) hww'

/-- **The environments of a pass bind entries** after any number of steps. -/
theorem steps (hwords : ∀ name, R.Word name) (hp : p.HeldIn u)
    (htypes : ∀ t ∈ plan.graph.types ++ plan.surroundings.types, u.Keeps t) (n : Nat) :
    R.Yields u (steps plan n p) fun v p => p.HeldIn v := by
  induction n generalizing u p with
  | zero => exact .pure fun _ _ huv => heldIn_grows hp huv
  | succ n ih =>
    rw [Pass.steps, Pass.step]
    split
    · rw [pure_bind]
      exact .pure fun _ _ huv => heldIn_grows hp huv
    · rename_i id _
      have hwaiting : Pass.HeldIn { p with waiting := p.waiting.erase id } u := ⟨hp.entered, hp.edge, hp.declared⟩
      simp only [bind_assoc, pure_bind]
      exact (hR.visit hwords hwaiting htypes id).bind fun v q _ huv hq =>
        ih hq fun t ht => R.keeps huv (htypes t ht)

omit hR in
theorem heldIn_start {g : Graph} (hg : ∀ t ∈ g.types, u.Keeps t) : (Pass.start g).HeldIn u where
  entered he := by simp [Pass.start] at he
  edge he := by simp [Pass.start] at he
  declared t ht := hg t (by simp only [Graph.types, List.mem_append]; exact .inl (.inr ht))

end Universe.Regime.Serving
end FlowTyping

/-! ## Universes that hold anything -/

namespace FlowTyping.Universe

open Ty

variable {u v : Universe} {s t : Ty} {ts : List Ty}

/-- Names are any texts, and no question is under way. -/
def Regime.coherent : Regime where
  Holds u := u.Coherent ∧ u.spent = false
  Grows := Onward
  Word _ := True
  refl := .refl
  trans := .trans
  keeps huv ht := huv.keeps ht
  key_eq hu hk := hu.1.key_eq hk
  part hu ht := hu.1.part ht
  atom hu ht := hu.1.atom ht
  shape hu := hu.1.shape
  word _ _ _ _ := trivial
  orderly hu ht hi := hu.1.orderly ht hi

section Tracks

variable {α : Type} {C K : Prop} {x : InUniverse α} {y : Ideal noClasses α} {Q : Universe → α → Prop} {fallback : α}

/-- A computation that cannot run out of steps is an operation as it stands. -/
theorem Tracks.yields (hx : u.Tracks C True x y Q) :
    Regime.coherent.Yields u x fun v a => Q v a ∧ (C → a = y.run) := by
  rintro v ⟨hv, hspent⟩ huv
  obtain ⟨hw, hvw, hq, hsame, hsteady⟩ := hx v hv huv
  exact ⟨⟨hw, hsteady trivial hspent⟩, hvw, hq, hsame (hsteady trivial hspent)⟩

/-- A question is answered as it is followed, or it runs out of steps and leaves no trace. -/
theorem Tracks.bounded (hx : u.Tracks C K x y Q)
    (hfallback : ∀ v : Universe, v.Coherent → u.Onward v → Q v fallback) :
    Regime.coherent.Yields u (TypeStore.bounded fallback x) fun v a => Q v a ∧ (C → K → a = y.run) := by
  rintro v ⟨hv, hspent⟩ huv
  have hfresh : { v with spent := false } = v := by rw [← hspent]
  obtain ⟨hw, hvw, hq, hsame, hsteady⟩ := hx v hv huv
  generalize hrun : x.run v = made at hw hvw hq hsame hsteady
  obtain ⟨a, w⟩ := made
  cases hout : w.spent with
  | false =>
    rw [run_bounded_of_run hrun hspent hout]
    exact ⟨⟨hw, hout⟩, hvw, hq, fun hC _ => hsame hout hC⟩
  | true =>
    -- the steps did not suffice, so the universe is what it was before the question
    rw [run_bounded, hfresh, hrun, if_pos hout]
    exact ⟨⟨hv, hspent⟩, .refl v, hfallback v hv huv, fun _ hK => absurd (hsteady hK hspent) (by simp [hout])⟩

end Tracks

/-- **Coherent universes are kept coherent** by what the operations are built from. -/
theorem serving_coherent : Regime.coherent.Serving where
  intern {u t} hparts _ horderly hi :=
    (tracks_intern (C := False) hparts (fun _ => horderly) (fun _ ms heq => by simp [heq, isInter] at hi)
      (fun _ => False.elim)).yields.imp fun _ _ _ _ h => h.1.1
  union hts := (tracks_union (C := False) hts fun _ => False.elim).yields.imp fun _ _ _ _ h => h.1
  intersect {u ts} hts :=
    (((Rules.careful_upTo (Ty.sizeAll ts) (stepBound ts)).intersect hts).bounded fun _ hv _ =>
      hv.atom (by simp [atoms])).imp fun _ _ _ _ h => h.1
  propertyOf {u t} name ht :=
    (((Rules.careful_upTo (Ty.sizeAll [t]) (stepBound [t])).property name ht).bounded fun _ _ _ => by simp).imp
      fun _ _ _ _ h => h.1
  subtype {u a b} ha hb :=
    (((Rules.careful_upTo (Ty.sizeAll [a, b]) (stepBound [a, b])).subtype ha hb).bounded fun _ _ _ => trivial).imp
      fun _ _ _ _ h => h.1
  disjoint {u a b} ha hb :=
    (((Rules.careful_upTo (Ty.sizeAll [a, b]) (stepBound [a, b])).disjoint ha hb).bounded fun _ _ _ => trivial).imp
      fun _ _ _ _ h => h.1

/-- **The members of a lucid intersection that is kept are put together again as that intersection.** -/
theorem yields_intersect_members {ms : List Ty} (hu : u.Coherent) (hspent : u.spent = false)
    (ht : u.Keeps (.inter ms)) (hlucid : Lucid (.inter ms)) :
    Regime.coherent.Yields u (TypeStore.intersect ms) fun _ s => s = .inter ms := by
  have hcareful := (Rules.careful_upTo (Ty.sizeAll ms) (stepBound ms)).intersect (hu.part ht)
  refine (hcareful.bounded fun _ hv _ => hv.atom (by simp [atoms])).imp fun _ s _ _ h => ?_
  have hcalm : u.Calm ms := ⟨fun m hm => hlucid.part hm, .inl ht⟩
  rw [h.2 hcalm ⟨hcalm, fun m hm => Rules.shallow_of_mem hm, Rules.intersectRank_lt_stepBound ms⟩,
    Ideal.run_answers_intersect]
  exact hu.intersect_members hspent ht hlucid

/-! ## Entries -/

namespace Coherent

theorem new (memory : Nat) : (Universe.new memory).Coherent := by
  have hatom (t : Ty) (ht : (Universe.new memory).Keeps t) : t ∈ atoms := (lookup?_new.1 ht).1
  have hplain (t : Ty) (ht : t ∈ atoms) : t.parts = [] ∧ t.Orderly ∧ t.isInter = false := by
    simp only [atoms, List.mem_cons, List.not_mem_nil, or_false] at ht
    rcases ht with rfl | rfl | rfl | rfl | rfl | rfl | rfl <;> exact ⟨rfl, trivial, rfl⟩
  refine ⟨fun hk => (lookup?_new.1 hk).2.symm, fun ht => by simp [(hplain _ (hatom _ ht)).1],
    fun ht => lookup?_new.2 ⟨ht, rfl⟩, by simp [Universe.new], fun ht _ => (hplain _ (hatom _ ht)).2.1,
    fun _ ms ht => ?_, fun _ => .of_empty memory⟩
  simpa [isInter] using (hplain _ (hatom _ ht)).2.2

/-- Declaring a class changes no entry. What is remembered of lucid types stays right, since classes are
nothing to them. -/
theorem declare {c : ClassDecl} {k : Hierarchy} {memory : Memory} (hu : u.Coherent)
    (hdeclare : u.classes.declare c = .ok k) (hshape : ∀ t ∈ c.shape, u.Keeps t)
    (hright : u.spent = false → memory.Each u.Fits) :
    ({ u with classes := k, memory } : Universe).Coherent := by
  obtain rfl := Hierarchy.eq_of_declare hdeclare
  refine ⟨hu.key_eq, hu.part, hu.atom, fun d hd t ht => ?_, hu.orderly, hu.standing, hright⟩
  rcases List.mem_cons.1 hd with rfl | hd
  · exact hshape t ht
  · exact hu.shape d hd t ht

/-- Lucid entries are canonical. -/
theorem canonical (hu : u.Coherent) (hspent : u.spent = false) (ht : u.Keeps t) (hlucid : Lucid t) : Canonical t := by
  induction hlucid with
  | @intro t _ hparts ih =>
    refine .intro ?_ fun s hs => ih s hs (hu.part ht s hs)
    cases t with
    | union ms =>
      have hform : UnionForm ms := hu.orderly ht rfl
      exact ⟨hform.two_le, keys_nodup_of_increasing hform.increasing, hform.member⟩
    | inter ms =>
      obtain ⟨hform, hsettled⟩ := hu.standing hspent ht hparts
      exact ⟨hform.two_le, hform.member, hsettled.imp fun h => ⟨noClasses, h⟩⟩
    | _ => trivial

/-- Nothing else stands under the key of an array of an entry. -/
theorem eq_array (hu : u.Coherent) (ht : u.Keeps t) (hs : u.Keeps s) (hk : s.key = (Ty.tuple [] (some t)).key) :
    s = .tuple [] (some t) := by
  obtain ⟨e, rfl, he⟩ := array_of_key_eq hk
  rw [(hu.part hs e (by simp [parts])).eq_of_key_eq ht he]

end Coherent

end FlowTyping.Universe

/-! ## What may have been done -/

namespace FlowTyping.Universe

open Ty FlowTyping.Graph

/-- The universes that come of a new one. Types are entries when they are used, or entries of another such
universe that are taken over. Nothing is asked of names, and nothing of what is remembered. -/
inductive Arises : Universe → Prop where
  | new (memory : Nat) : Arises (.new memory)
  | call {u : Universe} (hu : Arises u) (c : Call) (htypes : ∀ t ∈ c.types, u.Keeps t) : Arises (c.serve.run u).2
  | declare {u : Universe} (hu : Arises u) (c : ClassDecl) (hshape : ∀ t ∈ c.shape, u.Keeps t) :
    Arises ((Universe.declare c).run u).2
  | pass {u : Universe} (hu : Arises u) (g : Graph) (s : Surroundings) (limit n : Nat)
    (htypes : ∀ t ∈ g.types ++ s.types, u.Keeps t) : Arises (u.passOver g s limit n).2
  | adopt {u v : Universe} (hu : Arises u) (hv : Arises v) {t : Ty} (ht : v.Keeps t) :
    Arises ((TypeStore.normalize t : InUniverse Ty).run u).2

variable {u v : Universe} {c : Call}

/-- A call keeps the universe coherent, adds to its table and answers entries. -/
theorem serve_coherent (hu : Regime.coherent.Holds u) (htypes : ∀ t ∈ c.types, u.Keeps t) :
    Regime.coherent.Holds (c.serve.run u).2 ∧ u.Onward (c.serve.run u).2 := by
  by_cases hclass : ∃ name parents props, c = .declareClass name parents props
  · obtain ⟨name, parents, props, rfl⟩ := hclass
    rw [classes_of_serve_declareClass]
    obtain ⟨v, hv, huv, -, -, ⟨e, hrun⟩ | ⟨shape, k, hshape, hdeclare, hrun⟩⟩ :=
      serving_coherent.declareClass hu trivial (fun _ _ => trivial)
        fun p hp => htypes _ (List.mem_map_of_mem hp)
    · rw [hrun]
      exact ⟨hv, huv⟩
    · rw [hrun]
      exact ⟨⟨hv.1.declare hdeclare (by simpa using hshape) fun _ => .of_empty _, hv.2⟩, ⟨huv.lookup?, huv.spent⟩⟩
  · obtain ⟨hv, huv, -⟩ := Call.yields_serve serving_coherent
      (fun name parents props heq => hclass ⟨name, parents, props, heq⟩) htypes (fun _ _ => trivial) u hu (.refl u)
    exact ⟨hv, huv⟩

/-- **Whatever has been done with a universe, it is coherent**, and no question is under way. -/
theorem Arises.coherent (hu : u.Arises) : Regime.coherent.Holds u := by
  induction hu with
  | new memory => exact ⟨.new memory, rfl⟩
  | call _ c htypes ih => exact (serve_coherent ih htypes).1
  | @declare u _ c hshape ih =>
    have hrun := run_declare c u
    cases hdeclare : u.classes.declare c with
    | error e =>
      rw [hdeclare] at hrun
      rw [hrun]
      exact ih
    | ok k =>
      rw [hdeclare] at hrun
      rw [hrun]
      -- what is remembered may be wrong from now on, but not of lucid types
      exact ⟨ih.1.declare hdeclare hshape ih.1.right, ih.2⟩
  | pass _ g s limit n htypes ih =>
    have hstart := Regime.Serving.heldIn_start (g := g) fun t ht => htypes t (List.mem_append_left _ ht)
    exact (serving_coherent.steps (fun _ => trivial) hstart htypes n _ ih (.refl _)).1
  | @adopt u v _ _ t ht ihu ihv =>
    exact (serving_coherent.adopt (Regime.makes_of_keeps ihv ht) u ihu (.refl u)).1

/-- Where names are words and the memory is right, nothing else has been done. -/
theorem History.arises (hu : u.History) : u.Arises := by
  induction hu with
  | new memory => exact .new memory
  | call _ c htypes _ ih => exact .call ih c htypes
  | bare _ name parents _ _ _ ih =>
    rw [← declare_bare]
    exact .declare ih _ (by simp)
  | pass _ g s limit n htypes ih => exact .pass ih g s limit n htypes

end FlowTyping.Universe
