import FlowTyping.Proofs.Flow.History
import FlowTyping.Proofs.Store.Replaced

/-!
# Solved signatures

What a solved call consists of, whatever its arguments are: every type parameter of the signature is bound to
an entry, the bindings are held against the bounds with the bindings put in, and the instance has the types of
the signature with the bindings put in.

* **`Universe.Yields.of_agree`** — what two runs of a computation agree on holds of each.
* **`Universe.Instance`** — parameters and result stand for the replaced types.
* **`Universe.yields_solve_spec`** — what `solve` answers, as `Universe.Solved` lists it.
-/

namespace FlowTyping

open Ty Signature

/-- Each binding is within the bound of its parameter, with the bindings put in. -/
def Subst.Within (h : Hierarchy) (subst : Subst) (vars : List Ty) : Prop :=
  ∀ v ∈ vars, ∀ bound ∈ v.bound?,
    h.subtype ((subst.get? v).getD .unknown) (h.replaced subst bound) = true

namespace Universe

variable {h : Hierarchy} {u v : Universe} {sig inst : Signature} {subst : Subst} {bounds : Bounds} {s : Ty}
  {args explicit vs : List Ty}

/-- What two runs of a computation in the same universe agree on. -/
theorem Yields.of_agree {α : Type} {x : InUniverse α} {R : Twins → α → α → Prop} (hu : u.Sound h)
    (hproper : h.Proper) (hx : (Twins.mk u u).Agree x x R) : u.Yields h x fun v a => R (Twins.mk v v) a a := by
  obtain rfl := hu.classes_eq
  intro v hv huv
  have hclasses : v.classes = u.classes := hv.classes_eq
  have hself : (Twins.mk v v).Sound := Sound.twins (hclasses.symm ▸ hv) (hclasses.symm ▸ hproper)
  obtain ⟨hafter, hgrows, hR⟩ := hx ⟨v, v⟩ hself ⟨huv, huv, hclasses, hclasses⟩
  have hafter_classes : (x.run v).2.classes = u.classes := hgrows.left_classes.trans hclasses
  exact ⟨hafter_classes ▸ hafter.left, hclasses ▸ hgrows.left, hR⟩

/-- Two parameters that differ in their types: the first stands for the second with the bindings put in. -/
structure ReplacedParam (u : Universe) (h : Hierarchy) (subst : Subst) (q p : Param Ty) : Prop where
  name : q.name = p.name
  optional : q.optional = p.optional
  rest : q.rest = p.rest
  type : u.Stands q.type (h.replaced subst p.type)

/-- An instance of a signature: parameters and result stand for the replaced types. -/
structure Instance (u : Universe) (h : Hierarchy) (sig : Signature) (subst : Subst) (inst : Signature) :
    Prop where
  params : List.Forall₂ (u.ReplacedParam h subst) inst.params sig.params
  ret : u.Stands inst.ret (h.replaced subst sig.ret)

theorem Instance.grows (hi : u.Instance h sig subst inst) (huv : u.Grows h v) : v.Instance h sig subst inst :=
  ⟨hi.params.imp fun _ _ hp => ⟨hp.name, hp.optional, hp.rest, hp.type.grows huv⟩, hi.ret.grows huv⟩

/-- What is true of a solution. -/
structure Solved (u : Universe) (h : Hierarchy) (sig : Signature) (sol : Solution) : Prop where
  params : sol.subst.map (·.param) = sig.typeParams
  kept : ∀ b ∈ sol.subst, u.Keeps b.type
  ok_iff : sol.ok = true ↔ sol.subst.Within h sig.typeParams
  inst : u.Instance h sig sol.subst sol.signature

theorem signature_alike_self (hs : ∀ t ∈ sig.types, u.Keeps t) :
    sig.Mirrors (Twins.mk u u).Alike sig :=
  (sig.copies_self fun t ht => ⟨hs t ht, hs t ht, rfl⟩).mirrors

theorem alike_self {ts : List Ty} (hts : ∀ t ∈ ts, u.Keeps t) : List.Forall₂ (Twins.mk u u).Alike ts ts :=
  List.forall₂_same.2 fun t ht => ⟨hts t ht, hts t ht, rfl⟩

theorem alike_grow_self (hb : Subst.Mirrors (Twins.mk u u).Alike bounds bounds) (huv : u.Grows h v) :
    Subst.Mirrors (Twins.mk v v).Alike bounds bounds :=
  hb.imp fun _ _ h => ⟨huv.keeps h.left, huv.keeps h.right, h.key_eq⟩

/-- Every parameter is bound, in order, to an entry. -/
theorem yields_bindParams_spec (hu : u.Sound h) (hproper : h.Proper) (hs : ∀ t ∈ sig.types, u.Keeps t)
    (explicit : Bool) (hb : Subst.Mirrors (Twins.mk u u).Alike bounds bounds) (hvs : ∀ s ∈ vs, u.Keeps s) :
    u.Yields h (sig.bindParams explicit bounds vs) fun v bound =>
      bound.1.map (·.param) = vs ∧ ∀ b ∈ bound.1, v.Keeps b.type := by
  induction vs generalizing u with
  | nil => exact .pure fun _ _ _ => by simp
  | cons s vs ih =>
    rw [bindParams]
    have hself := hvs s (by simp)
    refine (Yields.of_agree hu hproper (Twins.agree_bindParam (signature_alike_self hs) explicit hb
      ⟨hself, hself, rfl⟩)).bind fun v first hv huv hfirst => ?_
    refine (ih hv (fun t ht => huv.keeps (hs t ht)) (alike_grow_self hb huv)
      fun t ht => huv.keeps (hvs t (by simp [ht]))).bind fun w rest _ hvw hrest => ?_
    refine .pure fun w' _ hww' => ⟨by simp [hrest.1], List.forall_mem_cons.2 ⟨?_, fun b hb => ?_⟩⟩
    · exact hww'.keeps (hvw.keeps hfirst.1.left)
    · exact hww'.keeps (hrest.2 b hb)

/-- Replacing is rebuilding when something is bound. -/
theorem yields_apply_replaced (hne : subst ≠ []) (hsubst : ∀ b ∈ subst, u.Keeps b.type) (hs : u.Keeps s) :
    u.Yields h (TypeStore.apply s subst) fun v r => v.Stands r (h.replaced subst s) := by
  rw [TypeStore.apply, if_neg (by simpa using hne)]
  exact yields_rebuild hsubst hs

/-- Bindings are held against bounds with the bindings put in. -/
theorem yields_checkBounds_spec (hne : subst ≠ []) (hsubst : ∀ b ∈ subst, u.Keeps b.type)
    (hvs : ∀ s ∈ vs, u.Keeps s) :
    u.Yields h (checkBounds subst vs) fun _ violations => violations = [] ↔ subst.Within h vs := by
  induction vs generalizing u with
  | nil => exact .pure fun _ _ _ => by simp [Subst.Within]
  | cons s vs ih =>
    have hrest {v : Universe} (huv : u.Grows h v) :
        v.Yields h (checkBounds subst vs) fun _ violations => violations = [] ↔ subst.Within h vs :=
      ih (fun b hb => huv.keeps (hsubst b hb)) fun t ht => huv.keeps (hvs t (by simp [ht]))
    have hcons : subst.Within h (s :: vs) ↔ (∀ bound ∈ s.bound?,
        h.subtype ((subst.get? s).getD .unknown) (h.replaced subst bound) = true) ∧ subst.Within h vs :=
      List.forall_mem_cons
    refine .of_sound fun v hv huv => ?_
    rw [checkBounds]
    cases hbound : s.bound? with
    | none =>
      refine (hrest huv).imp fun _ _ _ _ hiff => hiff.trans ?_
      simp [hcons, hbound]
    | some bound =>
      have hkept : v.Keeps bound := by
        refine hv.part (huv.keeps (hvs s (by simp))) bound ?_
        cases s with
        | var name b => exact Option.mem_toList.2 hbound
        | _ => simp [Ty.bound?] at hbound
      have hlower : v.Keeps ((subst.get? s).getD .unknown) := by
        cases hget : subst.get? s with
        | none => exact hv.atom (by simp [atoms])
        | some lower => exact huv.keeps (keeps_get? hsubst hget)
      refine (yields_apply_replaced hne (fun b hb => huv.keeps (hsubst b hb)) hkept).bind fun w r hw hvw hr => ?_
      refine (says_subtype (hw.stands (hvw.keeps hlower)) hr).ite (fun hyes => ?_) fun hno => ?_
      · refine (hrest (huv.trans hvw)).imp fun _ _ _ _ hiff => hiff.trans ?_
        simp [hcons, hbound, hyes]
      · refine (hrest (huv.trans hvw)).bind fun _ _ _ _ _ => .pure fun _ _ _ => ?_
        simp [hcons, hbound, hno]

theorem yields_instantiate_spec (hne : subst ≠ []) (hs : ∀ t ∈ sig.types, u.Keeps t)
    (hsubst : ∀ b ∈ subst, u.Keeps b.type) :
    u.Yields h (sig.instantiate subst) fun v inst => v.Instance h sig subst inst := by
  unfold instantiate
  refine (Yields.mapM (R := Eq) (P := fun v p q => v.ReplacedParam h subst q p)
    (fun hvw hp => ⟨hp.name, hp.optional, hp.rest, hp.type.grows hvw⟩) (List.forall₂_same.2 fun _ _ => rfl)
    fun p hp q _ heq => ?_).bind fun v params _ huv hparams => ?_
  · subst heq
    have hkept : u.Keeps p.type := hs _ (by simp [Signature.types, List.mem_map_of_mem hp])
    exact (yields_apply_replaced hne hsubst hkept).bind fun _ r _ _ hr => .pure fun _ _ hvw =>
      ⟨rfl, rfl, rfl, hr.grows hvw⟩
  · have hret : v.Keeps sig.ret := huv.keeps (hs _ (by simp [Signature.types]))
    refine (yields_apply_replaced hne (fun b hb => huv.keeps (hsubst b hb)) hret).bind fun w r _ hvw hr => ?_
    refine .pure fun _ _ hww' => ⟨hparams.flip.imp fun _ _ hp => ?_, hr.grows hww'⟩
    exact ⟨hp.name, hp.optional, hp.rest, hp.type.grows (hvw.trans hww')⟩

/-- **What `solve` answers** for a signature with type parameters. -/
theorem yields_solve_spec (hu : u.Sound h) (hproper : h.Proper) (hgeneric : sig.typeParams ≠ [])
    (hs : ∀ t ∈ sig.types, u.Keeps t) (ha : ∀ t ∈ args, u.Keeps t) (he : ∀ t ∈ explicit, u.Keeps t) :
    u.Yields h (sig.solve args explicit) fun v solved => ∀ sol, solved = .ok sol → v.Solved h sig sol := by
  have hvars {v : Universe} (huv : u.Grows h v) (t) (ht : t ∈ sig.typeParams) : v.Keeps t :=
    huv.keeps (hs t (by simp [Signature.types, ht]))
  -- bounds are inferred or given; what is made of them does not depend on which
  have hrest {v : Universe} (hv : v.Sound h) (huv : u.Grows h v) {bounds : Bounds}
      (hb : Subst.Mirrors (Twins.mk v v).Alike bounds bounds) :
      v.Yields h
        (do
          let bound ← sig.bindParams (!explicit.isEmpty) bounds sig.typeParams
          let violations ← checkBounds bound.1 sig.typeParams
          let signature ← sig.instantiate bound.1
          return Except.ok { bounds, subst := bound.1, signature, violations, underconstrained := bound.2 })
        fun v (solved : Except TypeArgCount Solution) => ∀ sol, solved = .ok sol → v.Solved h sig sol := by
    refine (yields_bindParams_spec hv hproper (fun t ht => huv.keeps (hs t ht)) _ hb (hvars huv)).bind ?_
    rintro w₁ bound _ h₁ ⟨hparams, hkept⟩
    -- without bindings nothing would be rebuilt, but there is one for each parameter
    have hne : bound.1 ≠ [] := fun hnone => hgeneric (by rw [← hparams, hnone, List.map_nil])
    refine (yields_checkBounds_spec hne hkept (hvars (huv.trans h₁))).bind fun w₂ violations _ h₂ hwithin => ?_
    refine (yields_instantiate_spec hne (fun t ht => h₂.keeps (h₁.keeps (huv.keeps (hs t ht))))
      fun b hb => h₂.keeps (hkept b hb)).bind fun w₃ inst _ h₃ hinst => ?_
    refine .pure fun w₄ _ h₄ sol hsol => ?_
    obtain rfl := Except.ok.inj hsol
    refine ⟨hparams, fun b hb => h₄.keeps (h₃.keeps (h₂.keeps (hkept b hb))), ?_, hinst.grows h₄⟩
    rw [Solution.ok, List.isEmpty_iff]
    exact hwithin
  have hself := signature_alike_self hs
  unfold solve
  split
  · exact .pure fun _ _ _ sol hsol => by simp at hsol
  · dsimp only
    split
    · exact (Yields.of_agree hu hproper (Twins.agree_inferFrom hself 0 (alike_self ha) .nil)).bind
        fun v _ hv huv hb => hrest hv huv hb
    · exact (Yields.of_agree hu hproper (Twins.agree_explicitBounds
        (alike_self fun t ht => hvars (.refl h u) t ht) (alike_self he) .nil)).bind
          fun v _ hv huv hb => hrest hv huv hb

end Universe
end FlowTyping
