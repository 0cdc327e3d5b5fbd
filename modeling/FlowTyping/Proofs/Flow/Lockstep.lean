import FlowTyping.Flow.Pass
import FlowTyping.Proofs.Flow.Likeness
import FlowTyping.Proofs.Flow.Step

/-!
# Passes in two universes

Two passes over the same graph, with alike types written in it, go the same way in two universes: they look
at the same nodes in the same order and note alike environments.

* **`Graph.Pass.Mirrors R`** — passes that have come equally far, with related types.
* **`Graph.Pass.steps`** — a pass after some number of steps; **`Graph.Pass.run_eq_steps`** says that a whole
  run is as many steps as it takes.
* **`Twins.agree_step`** — what one step keeps, and **`Twins.agree_steps`** — what any number of them keeps.
-/

namespace FlowTyping

open Ty

/-! ## The way through a graph -/

theorem optionRel_getElem? {α β : Type} {R : α → β → Prop} {xs : List α} {ys : List β}
    (h : List.Forall₂ R xs ys) (i : Nat) : Option.Rel R xs[i]? ys[i]? := by
  induction h generalizing i with
  | nil => exact .none
  | cons hxy _ ih =>
    cases i with
    | zero => exact .some hxy
    | succ i => exact ih i

theorem forall₂_filterMap {α β γ : Type} {R : β → γ → Prop} {f : α → Option β} {g : α → Option γ}
    (hfg : ∀ x, Option.Rel R (f x) (g x)) (xs : List α) :
    List.Forall₂ R (xs.filterMap f) (xs.filterMap g) := by
  induction xs with
  | nil => exact .nil
  | cons x xs ih =>
    have hx := hfg x
    rw [List.filterMap_cons, List.filterMap_cons]
    generalize f x = o, g x = o' at hx
    cases hx with
    | none => exact ih
    | some h => exact .cons h ih

theorem forall₂_flatMap {α β γ : Type} {R : β → γ → Prop} {f : α → List β} {g : α → List γ}
    (hfg : ∀ x, List.Forall₂ R (f x) (g x)) (xs : List α) :
    List.Forall₂ R (xs.flatMap f) (xs.flatMap g) := by
  induction xs with
  | nil => exact .nil
  | cons x xs ih =>
    rw [List.flatMap_cons, List.flatMap_cons]
    exact List.rel_append (hfg x) ih

namespace Graph

variable {R S : Ty → Ty → Prop} {g k : Graph}

namespace Mirrors

theorem node_rel (h : g.Mirrors R k) (id : Nat) :
    Option.Rel (Node.Mirrors R) g.nodes[id]? k.nodes[id]? := by
  rw [← Array.getElem?_toList, ← Array.getElem?_toList]
  exact optionRel_getElem? h.nodes id

theorem succs_eq (h : g.Mirrors R k) : g.succs = k.succs := by
  funext id
  have hnode := h.node_rel id
  unfold succs
  generalize g.nodes[id]? = o, k.nodes[id]? = o' at hnode
  cases hnode with
  | none => rfl
  | some hn => exact hn.succs

theorem size_eq (h : g.Mirrors R k) : g.size = k.size := h.nodes.length_eq

theorem predecessors_eq (h : g.Mirrors R k) : g.predecessors = k.predecessors := by
  funext id
  rw [predecessors, predecessors, h.size_eq, h.succs_eq]

/-- A search looks at successors only. -/
theorem reversePostorder_eq (h : g.Mirrors R k) : g.reversePostorder = k.reversePostorder := by
  have hsearch (fuel : Nat) : g.search fuel = k.search fuel := by
    induction fuel with
    | zero => rfl
    | succ fuel ih =>
      funext id s
      rw [search, search, h.succs_eq, ih]
  rw [reversePostorder, reversePostorder, hsearch, h.size_eq, h.entry]

theorem loopHeaders_eq (h : g.Mirrors R k) : g.loopHeaders = k.loopHeaders := by
  rw [loopHeaders, loopHeaders, h.reversePostorder_eq, h.succs_eq, h.size_eq]

end Mirrors

/-- The same plan, with related types. -/
structure Plan.Mirrors (R : Ty → Ty → Prop) (x y : Plan) : Prop where
  graph : x.graph.Mirrors R y.graph
  surroundings : x.surroundings.Mirrors R y.surroundings
  order : x.order = y.order
  headers : x.headers = y.headers
  maxLoopVisits : x.maxLoopVisits = y.maxLoopVisits

theorem Plan.Mirrors.imp {x y : Plan} (h : x.Mirrors R y) (hRS : ∀ s t, R s t → S s t) : x.Mirrors S y :=
  ⟨h.graph.imp hRS, h.surroundings.imp hRS, h.order, h.headers, h.maxLoopVisits⟩

theorem Mirrors.plan_rel {s t : Surroundings} (hg : g.Mirrors R k) (hs : s.Mirrors R t) (limit : Nat) :
    (g.plan s limit).Mirrors R (k.plan t limit) :=
  ⟨hg, hs, hg.reversePostorder_eq, hg.loopHeaders_eq, rfl⟩

/-! ## Passes -/

namespace Pass

/-- Passes that have come equally far: the same nodes were entered, in environments with related types, and
the same ones wait. -/
structure Mirrors (R : Ty → Ty → Prop) (p q : Pass) : Prop where
  entered : ∀ id : Nat, Option.Rel (Env.Mirrors R) p.entered[id]? q.entered[id]?
  visits : ∀ id : Nat, p.visits[id]? = q.visits[id]?
  edges : ∀ e : Nat × Nat, Option.Rel (Env.Mirrors R) p.edges[e]? q.edges[e]?
  declared : p.declared.Mirrors R q.declared
  waiting : ∀ id : Nat, p.waiting.contains id = q.waiting.contains id
  calls : ∀ id : Nat, Option.Rel (CallResult.Mirrors R) p.calls[id]? q.calls[id]?
  switches : ∀ id : Nat, Option.Rel (CaseSplit.Mirrors R) p.switches[id]? q.switches[id]?
  degraded : ∀ id : Nat, p.degraded.contains id = q.degraded.contains id
  findings : ∀ id : Nat, Option.Rel (List.Forall₂ (Finding.Mirrors R)) p.findings[id]? q.findings[id]?

namespace Mirrors

variable {p q : Pass}

theorem imp (h : p.Mirrors R q) (hRS : ∀ s t, R s t → S s t) : p.Mirrors S q where
  entered id := optionRel_imp (h.entered id) fun _ _ h => h.imp hRS
  visits := h.visits
  edges e := optionRel_imp (h.edges e) fun _ _ h => h.imp hRS
  declared := h.declared.imp hRS
  waiting := h.waiting
  calls id := optionRel_imp (h.calls id) fun _ _ h => h.imp hRS
  switches id := optionRel_imp (h.switches id) fun _ _ h => h.imp hRS
  degraded := h.degraded
  findings id := optionRel_imp (h.findings id) fun _ _ h => h.imp fun _ _ h => h.imp hRS

theorem start (h : g.Mirrors R k) : (Pass.start g).Mirrors R (Pass.start k) := by
  have hempty {α β : Type} {T : α → β → Prop} {key : Type} [BEq key] [Hashable key] (i : key) :
      Option.Rel T (∅ : Std.HashMap key α)[i]? (∅ : Std.HashMap key β)[i]? := by
    rw [Std.HashMap.getElem?_empty, Std.HashMap.getElem?_empty]
    exact .none
  refine ⟨hempty, fun _ => rfl, hempty, h.declared, fun id => ?_, hempty, hempty, fun _ => rfl, hempty⟩
  rw [Pass.start, Pass.start, h.entry]

theorem next?_eq (h : p.Mirrors R q) {x y : Plan} (hxy : x.Mirrors R y) : p.next? x = q.next? y := by
  have hwaiting : p.waiting.contains = q.waiting.contains := funext h.waiting
  rw [next?, next?, hxy.order, hwaiting]

theorem awaits (h : p.Mirrors R q) (id : Nat) :
    Mirrors R { p with waiting := p.waiting.insert id } { q with waiting := q.waiting.insert id } := by
  refine { h with waiting := fun i => ?_ }
  rw [Std.HashSet.contains_insert, Std.HashSet.contains_insert, h.waiting]

theorem taken (h : p.Mirrors R q) (id : Nat) :
    Mirrors R { p with waiting := p.waiting.erase id } { q with waiting := q.waiting.erase id } := by
  refine { h with waiting := fun i => ?_ }
  rw [Std.HashSet.contains_erase, Std.HashSet.contains_erase, h.waiting]

theorem noteEdge_rel (hR : Mirroring R) (h : p.Mirrors R q) (id slot succ : Nat) {o o' : Option Env}
    (ho : Option.Rel (Env.Mirrors R) o o') :
    (p.noteEdge id slot succ o).Mirrors R (q.noteEdge id slot succ o') := by
  have hinsert {e f : Env} (hef : e.Mirrors R f) : Mirrors R
      { p with edges := p.edges.insert (id, slot) e, waiting := p.waiting.insert succ }
      { q with edges := q.edges.insert (id, slot) f, waiting := q.waiting.insert succ } := by
    refine { h.awaits succ with edges := fun i => ?_ }
    rw [Std.HashMap.getElem?_insert, Std.HashMap.getElem?_insert]
    split
    · exact .some hef
    · exact h.edges i
  have hold := h.edges (id, slot)
  unfold noteEdge
  generalize p.edges[(id, slot)]? = old, q.edges[(id, slot)]? = old' at hold
  cases ho with
  | none =>
    cases hold with
    | none => exact h
    | some _ =>
      refine { h.awaits succ with edges := fun i => ?_ }
      rw [Std.HashMap.getElem?_erase, Std.HashMap.getElem?_erase]
      split
      · exact .none
      · exact h.edges i
  | some hef =>
    cases hold with
    | none => exact hinsert hef
    | some hold =>
      dsimp only
      rw [hold.same_eq hR hef]
      split
      · exact h
      · exact hinsert hef

theorem noteEdges_rel (hR : Mirroring R) (h : p.Mirrors R q) (id slot : Nat) (succs : List Nat)
    {os os' : List (Option Env)} (hos : List.Forall₂ (Option.Rel (Env.Mirrors R)) os os') :
    (p.noteEdges id slot succs os).Mirrors R (q.noteEdges id slot succs os') := by
  induction succs generalizing p q slot os os' with
  | nil => exact h
  | cons succ succs ih =>
    rw [noteEdges, noteEdges]
    cases hos with
    | nil => exact ih (h.noteEdge_rel hR id slot succ .none) (slot + 1) .nil
    | cons ho htail => exact ih (h.noteEdge_rel hR id slot succ ho) (slot + 1) htail

theorem record_rel (hR : Mirroring R) (h : p.Mirrors R q) (id : Nat) (succs : List Nat) {e f : Env}
    (hef : e.Mirrors R f) {o o' : Outcome} (ho : o.Mirrors R o') :
    (p.record id succs e o).Mirrors R (q.record id succs f o') := by
  have hinsert {α β : Type} {T : α → β → Prop} {xs : Std.HashMap Nat α} {ys : Std.HashMap Nat β}
      (hxs : ∀ i : Nat, Option.Rel T xs[i]? ys[i]?) {a : α} {b : β} (hab : T a b) (i : Nat) :
      Option.Rel T (xs.insert id a)[i]? (ys.insert id b)[i]? := by
    rw [Std.HashMap.getElem?_insert, Std.HashMap.getElem?_insert]
    split
    · exact .some hab
    · exact hxs i
  unfold record
  apply noteEdges_rel hR _ id 0 succs ho.outs
  refine ⟨hinsert h.entered hef, fun i => ?_, h.edges, ho.declared, h.waiting, ?_, ?_, ?_,
    hinsert h.findings ho.findings⟩
  · simp only [Std.HashMap.getElem?_insert, Std.HashMap.getD_eq_getD_getElem?, h.visits]
  · have hcall := ho.call
    dsimp only
    generalize o.call = c, o'.call = d at hcall
    cases hcall with
    | none => exact h.calls
    | some hcd => exact hinsert h.calls hcd
  · have hcases := ho.cases
    dsimp only
    generalize o.cases = c, o'.cases = d at hcases
    cases hcases with
    | none => exact h.switches
    | some hcd => exact hinsert h.switches hcd
  · intro i
    dsimp only
    rw [ho.degraded]
    split
    · rw [Std.HashSet.contains_insert, Std.HashSet.contains_insert, h.degraded]
    · exact h.degraded i

theorem liveInto_rel (h : p.Mirrors R q) (hg : g.Mirrors R k) (id : Nat) :
    List.Forall₂ (Env.Mirrors R) (p.liveInto g id) (q.liveInto k id) := by
  unfold liveInto
  rw [hg.predecessors_eq, hg.succs_eq]
  refine forall₂_flatMap (fun pred => forall₂_filterMap (fun x => ?_) _) _
  dsimp only
  split
  · exact h.edges _
  · exact .none

/-- The same diagnostics, of related types, in the same places. -/
theorem diagnostics_rel (h : p.Mirrors R q) (hg : g.Mirrors R k) :
    List.Forall₂ (fun d e => d.location = e.location ∧ d.finding.Mirrors R e.finding)
      (p.diagnostics g) (q.diagnostics k) := by
  unfold diagnostics
  rw [hg.size_eq, hg.name]
  refine forall₂_flatMap (fun id => ?_) _
  rw [List.forall₂_map_left_iff, List.forall₂_map_right_iff, Std.HashMap.getD_eq_getD_getElem?,
    Std.HashMap.getD_eq_getD_getElem?]
  have hfindings := h.findings id
  generalize p.findings[id]? = o, q.findings[id]? = o' at hfindings
  cases hfindings with
  | none => exact .nil
  | some hfs => exact hfs.imp fun _ _ h => ⟨rfl, h⟩

end Mirrors

section Steps

variable {m : Type → Type} [TypeStore m]

/-- A pass after a number of steps; when none waits it stays as it is. -/
def steps (plan : Plan) : Nat → Pass → m Pass
  | 0, p => pure p
  | n + 1, p => do
    match ← p.step plan with
    | none => return p
    | some p => steps plan n p

/-- A run is as many steps as it is given, and ends if none waits after them. -/
theorem run_eq_steps [LawfulMonad m] (plan : Plan) (n : Nat) (p : Pass) :
    (run plan n p : m (Option Pass)) = do
      let q ← steps plan n p
      return if (q.next? plan).isNone then some q else none := by
  induction n generalizing p with
  | zero => rw [run, steps, pure_bind]
  | succ n ih =>
    rw [run, steps, step]
    cases hnext : p.next? plan with
    | none => simp [hnext]
    | some id => simp only [bind_assoc, pure_bind, ih]

end Steps

end Pass
end Graph

/-! ## Steps in both -/

namespace Twins

open FlowTyping.Graph FlowTyping.Graph.Pass

variable {w v : Twins} {p q : Pass} {x y : Plan} {g k : Graph} {env env' declared declared' prev prev' : Env}

theorem pass_grows (h : p.Mirrors w.Alike q) (hwv : w.Grows v) : p.Mirrors v.Alike q :=
  h.imp fun _ _ h => h.grows hwv

theorem plan_grows (h : x.Mirrors w.Alike y) (hwv : w.Grows v) : x.Mirrors v.Alike y :=
  h.imp fun _ _ h => h.grows hwv

theorem agree_entryEnv {ps qs : List (Param Ty)} (hps : List.Forall₂ (Param.Copies w.Alike) ps qs)
    (henv : env.Mirrors w.Alike env') :
    w.Agree (entryEnv ps env) (entryEnv qs env') fun v => Env.Mirrors v.Alike := by
  induction ps generalizing w qs env env' with
  | nil =>
    cases hps
    exact .pure fun _ _ hwv => env_grows henv hwv
  | cons p ps ih =>
    obtain ⟨q, qs, hpq, htail, rfl⟩ := List.forall₂_cons_left_iff.1 hps
    have hrest {v : Twins} (hwv : w.Grows v) {s t : Ty} (hst : v.Alike s t) :
        v.Agree (entryEnv ps (env.bind p.name s)) (entryEnv qs (env'.bind q.name t)) fun v =>
          Env.Mirrors v.Alike := by
      rw [hpq.name]
      exact ih (htail.imp fun _ _ h => h.imp fun _ _ h => h.grows hwv)
        ((env_grows henv hwv).bind_rel q.name hst)
    rw [entryEnv, entryEnv, hpq.optional, hpq.rest]
    dsimp only
    split
    · refine .of_sound fun v hv hwv => ?_
      refine (agree_union (.cons (hpq.type.grows hwv) (.cons (hv.atom (by simp [atoms])) .nil))).bind ?_
      intro u _ _ _ hvu hst
      exact hrest (hwv.trans hvu) hst
    · exact hrest (.refl w) hpq.type

theorem agree_joinNames {envs envs' : List Env} (henvs : List.Forall₂ (Env.Mirrors w.Alike) envs envs')
    {fallback fallback' : String → Ty} (hfallback : ∀ name, w.Alike (fallback name) (fallback' name))
    (names : List String) :
    w.Agree (Env.joinNames envs fallback names) (Env.joinNames envs' fallback' names) fun v bs cs =>
      List.Forall₂ (fun b c => b.1 = c.1 ∧ v.Alike b.2 c.2) bs cs := by
  induction names generalizing w with
  | nil => exact .pure fun _ _ _ => .nil
  | cons name names ih =>
    rw [Env.joinNames, Env.joinNames]
    have htypes : List.Forall₂ w.Alike (envs.map fun e => (e.find? name).getD (fallback name))
        (envs'.map fun e => (e.find? name).getD (fallback' name)) := by
      rw [List.forall₂_map_left_iff, List.forall₂_map_right_iff]
      refine henvs.imp fun e f hef => ?_
      have hfind := hef.find?_rel name
      generalize e.find? name = o, f.find? name = o' at hfind
      cases hfind with
      | none => exact hfallback name
      | some h => exact h
    refine (agree_union htypes).bind fun v _ _ _ hwv hst => ?_
    refine (ih (henvs.imp fun _ _ h => env_grows h hwv) fun name => (hfallback name).grows hwv).bind ?_
    intro u _ _ _ hvu hrest
    refine .pure fun u' _ huu' => .cons ⟨rfl, hst.grows (hvu.trans huu')⟩ ?_
    exact hrest.imp fun _ _ h => ⟨h.1, h.2.grows huu'⟩

theorem agree_joinAll {envs envs' : List Env} (henvs : List.Forall₂ (Env.Mirrors w.Alike) envs envs')
    {fallback fallback' : String → Ty} (hfallback : ∀ name, w.Alike (fallback name) (fallback' name)) :
    w.Agree (Env.joinAll envs fallback) (Env.joinAll envs' fallback') fun v => Env.Mirrors v.Alike := by
  have hmany : w.Agree
      (do
        let bs ← Env.joinNames envs fallback (Env.ofList (envs.flatMap (·.bindings))).names
        return { bindings := bs })
      (do
        let cs ← Env.joinNames envs' fallback' (Env.ofList (envs'.flatMap (·.bindings))).names
        return { bindings := cs })
      fun v => Env.Mirrors v.Alike := by
    have hbindings : List.Forall₂ (fun b c : String × Ty => b.1 = c.1 ∧ w.Alike b.2 c.2)
        (envs.flatMap (·.bindings)) (envs'.flatMap (·.bindings)) :=
      List.rel_flatMap henvs fun _ _ h => h
    rw [(Env.ofList_rel hbindings).names_eq]
    refine (agree_joinNames henvs hfallback _).bind fun v _ _ _ _ h => .pure fun u _ hvu => ?_
    exact h.imp fun _ _ h => ⟨h.1, h.2.grows hvu⟩
  unfold Env.joinAll
  cases henvs with
  | nil => exact hmany
  | cons he htail =>
    cases htail with
    | nil => exact .pure fun _ _ hwv => env_grows he hwv
    | cons _ _ => exact hmany

theorem agree_incoming (hpq : p.Mirrors w.Alike q) (hg : g.Mirrors w.Alike k) (id : Nat) :
    w.Agree (p.incoming g id) (q.incoming k id) fun v => Option.Rel (Env.Mirrors v.Alike) := by
  have hlive := hpq.liveInto_rel hg id
  unfold incoming
  rw [hg.entry]
  split
  · refine (agree_entryEnv hg.params .empty).bind fun _ _ _ _ _ h => .pure fun _ _ hvu => ?_
    exact .some (env_grows h hvu)
  · generalize p.liveInto g id = envs, q.liveInto k id = envs' at hlive
    cases hlive with
    | nil => exact .pure fun _ _ _ => .none
    | cons he htail =>
      refine .of_sound fun v hv hwv => ?_
      have hfallback (name : String) : v.Alike (unbound p.declared name) (unbound q.declared name) :=
        current_alike hv (env_grows hpq.declared hwv) .empty name
      refine (agree_joinAll (List.Forall₂.imp (fun _ _ h => env_grows h hwv) (.cons he htail))
        hfallback).bind fun _ _ _ _ _ h => .pure fun _ _ hvu => ?_
      exact .some (env_grows h hvu)

theorem agree_widenBindings (hdeclared : declared.Mirrors w.Alike declared')
    (hprev : prev.Mirrors w.Alike prev') (limit : Bool) {bs cs : List (String × Ty)}
    (hbs : List.Forall₂ (fun b c => b.1 = c.1 ∧ w.Alike b.2 c.2) bs cs) :
    w.Agree (widenBindings declared prev limit bs) (widenBindings declared' prev' limit cs) fun v bs cs =>
      List.Forall₂ (fun b c => b.1 = c.1 ∧ v.Alike b.2 c.2) bs cs := by
  induction bs generalizing w cs with
  | nil =>
    cases hbs
    exact .pure fun _ _ _ => .nil
  | cons b bs ih =>
    obtain ⟨c, cs, hbc, htail, rfl⟩ := List.forall₂_cons_left_iff.1 hbs
    obtain ⟨name, s⟩ := b
    obtain ⟨name', t⟩ := c
    obtain ⟨rfl, hst⟩ := hbc
    -- what the binding becomes, where `o` is the old type if it covers the new one
    have hrest {v : Twins} (hwv : w.Grows v) (hv : v.Sound) {o o' : Option Ty}
        (ho : Option.Rel v.Alike o o') :
        v.Agree
          (do return (name, match o with
                | some old => old
                | none => if limit then (declared.find? name).getD .unknown else s) ::
              (← widenBindings declared prev limit bs))
          (do return (name, match o' with
                | some old => old
                | none => if limit then (declared'.find? name).getD .unknown else t) ::
              (← widenBindings declared' prev' limit cs))
          fun v bs cs => List.Forall₂ (fun b c => b.1 = c.1 ∧ v.Alike b.2 c.2) bs cs := by
      refine (ih (env_grows hdeclared hwv) (env_grows hprev hwv)
        (htail.imp fun _ _ h => ⟨h.1, h.2.grows hwv⟩)).bind fun u _ _ _ hvu h => ?_
      refine .pure fun u' _ huu' => .cons ⟨rfl, ?_⟩ (h.imp fun _ _ h => ⟨h.1, h.2.grows huu'⟩)
      refine Alike.grows ?_ (hvu.trans huu')
      cases ho with
      | some h => exact h
      | none =>
        dsimp only
        split
        · have hfind := (env_grows hdeclared hwv).find?_rel name
          generalize declared.find? name = d, declared'.find? name = d' at hfind
          cases hfind with
          | none => exact hv.atom (by simp [atoms])
          | some h => exact h
        · exact hst.grows hwv
    rw [widenBindings, widenBindings]
    dsimp only
    have hfind := hprev.find?_rel name
    generalize prev.find? name = o, prev'.find? name = o' at hfind
    cases hfind with
    | none => exact .of_sound fun v hv hwv => hrest hwv hv .none
    | some hold =>
      refine (same_subtype hst hold).bind fun v covered hv hwv => ?_
      cases covered with
      | true => exact hrest hwv hv (.some (hold.grows hwv))
      | false => exact hrest hwv hv .none

theorem agree_arriving (hxy : x.Mirrors w.Alike y) (hpq : p.Mirrors w.Alike q) (id : Nat) :
    w.Agree (p.arriving x id) (q.arriving y id) fun v => Option.Rel (Env.Mirrors v.Alike) := by
  unfold arriving
  refine (agree_incoming hpq hxy.graph id).bind fun v _ _ hv hwv hincoming => ?_
  cases hincoming with
  | none => exact .pure fun _ _ _ => .none
  | @some env env' henv =>
    have hplain : v.Agree (pure (some env)) (pure (some env')) fun v => Option.Rel (Env.Mirrors v.Alike) :=
      .pure fun _ _ hvu => .some (env_grows henv hvu)
    replace hpq := pass_grows hpq hwv
    have hprev := hpq.entered id
    dsimp only
    generalize p.entered[id]? = o, q.entered[id]? = o' at hprev
    cases hprev with
    | none => exact hplain
    | some hprev =>
      dsimp only
      rw [hxy.headers, hxy.maxLoopVisits, Std.HashMap.getD_eq_getD_getElem?,
        Std.HashMap.getD_eq_getD_getElem?, hpq.visits]
      split
      · refine (agree_widenBindings hpq.declared hprev _ henv).bind fun u _ _ _ _ h => ?_
        exact .pure fun _ _ hu => .some (env_grows h hu)
      · exact hplain

/-- A node is passed over or entered alike. -/
theorem stale_eq {e f : Env} (hw : w.Sound) (hpq : p.Mirrors w.Alike q) (hef : e.Mirrors w.Alike f) (id : Nat) :
    p.stale id e = q.stale id f := by
  have hprev := hpq.entered id
  unfold stale
  generalize p.entered[id]? = o, q.entered[id]? = o' at hprev
  cases hprev with
  | none => rfl
  | some hold => exact hold.same_eq hw.mirroring hef

theorem agree_visit (hxy : x.Mirrors w.Alike y) (hpq : p.Mirrors w.Alike q) (id : Nat) :
    w.Agree (p.visit x id) (q.visit y id) fun v => Pass.Mirrors v.Alike := by
  have hsame : w.Agree (pure p) (pure q) fun v => Pass.Mirrors v.Alike :=
    .pure fun _ _ hwv => pass_grows hpq hwv
  have hnode := hxy.graph.node_rel id
  rw [visit_eq, visit_eq]
  generalize x.graph.nodes[id]? = o, y.graph.nodes[id]? = o' at hnode
  cases hnode with
  | none => exact hsame
  | @some n k hnk =>
    refine (agree_arriving hxy hpq id).bind fun v _ _ hv hwv harriving => ?_
    cases harriving with
    | none => exact hsame.grows hwv
    | some hef =>
      replace hpq := pass_grows hpq hwv
      replace hxy := plan_grows hxy hwv
      dsimp only
      rw [stale_eq hv hpq hef]
      split
      · exact .pure fun _ _ h => pass_grows hpq h
      · refine (agree_transfer hxy.surroundings hxy.graph.returns hpq.declared
          (hnk.op.imp fun _ _ h => h.grows hwv) hef).bind fun u o o' _ hvu ho => ?_
        rw [hnk.succs]
        refine .pure fun u' hu' h => ?_
        exact (pass_grows hpq (hvu.trans h)).record_rel hu'.mirroring id k.succs
          (env_grows hef (hvu.trans h))
          ⟨ho.outs.imp fun _ _ h' => optionRel_imp h' fun _ _ h' => env_grows h' h,
            env_grows ho.declared h, findings_grow ho.findings h,
            optionRel_imp ho.call fun _ _ h' => h'.imp fun _ _ h' => h'.grows h,
            optionRel_imp ho.cases fun _ _ h' => h'.imp fun _ _ h' => h'.grows h, ho.degraded⟩

theorem agree_step (hxy : x.Mirrors w.Alike y) (hpq : p.Mirrors w.Alike q) :
    w.Agree (p.step x) (q.step y) fun v => Option.Rel (Pass.Mirrors v.Alike) := by
  unfold step
  rw [hpq.next?_eq hxy]
  cases q.next? y with
  | none => exact .pure fun _ _ _ => .none
  | some id =>
    refine (agree_visit hxy (hpq.taken id) id).bind fun v _ _ _ _ h => .pure fun u _ hvu => ?_
    exact .some (pass_grows h hvu)

/-- **After any number of steps, the two passes have come equally far.** -/
theorem agree_steps (hxy : x.Mirrors w.Alike y) (hpq : p.Mirrors w.Alike q) (n : Nat) :
    w.Agree (steps x n p) (steps y n q) fun v => Pass.Mirrors v.Alike := by
  induction n generalizing w p q with
  | zero => exact .pure fun _ _ hwv => pass_grows hpq hwv
  | succ n ih =>
    rw [steps, steps]
    refine (agree_step hxy hpq).bind fun v _ _ _ hwv hstep => ?_
    cases hstep with
    | none => exact .pure fun _ _ hvu => pass_grows hpq (hwv.trans hvu)
    | some hstep => exact ih (plan_grows hxy hwv) hstep

/-- Outcomes of an analysis: passes that have come equally far, or the same error. -/
inductive AnalyzedAlike (R : Ty → Ty → Prop) : Except PassError Pass → Except PassError Pass → Prop where
  | ok {p q : Pass} (h : p.Mirrors R q) : AnalyzedAlike R (.ok p) (.ok q)
  | error (e : PassError) : AnalyzedAlike R (.error e) (.error e)

/-- A whole analysis ends alike, too. -/
theorem agree_analyze {s s' : Surroundings} (hg : g.Mirrors w.Alike k) (hs : s.Mirrors w.Alike s')
    (limits : Limits) (calledOff : Bool) :
    w.Agree (g.analyze s limits calledOff) (k.analyze s' limits calledOff) fun v =>
      AnalyzedAlike v.Alike := by
  have hplan := hg.plan_rel hs limits.maxLoopVisits
  unfold analyze
  rw [hg.size_eq, hg.name, hg.entry, run_eq_steps, run_eq_steps]
  split
  · exact .pure fun _ _ _ => .error _
  split
  · exact .pure fun _ _ _ => .error _
  rw [bind_assoc, bind_assoc]
  refine (agree_steps hplan (.start hg) stepAllowance).bind fun v p q _ hwv hpq => ?_
  rw [pure_bind, pure_bind, hpq.next?_eq (plan_grows hplan hwv)]
  cases q.next? (k.plan s' limits.maxLoopVisits) with
  | none => exact .pure fun _ _ hvu => .ok (pass_grows hpq hvu)
  | some _ => exact .pure fun _ _ _ => .error _

end Twins
end FlowTyping
