import FlowTyping.Proofs.Ty.Likeness
import FlowTyping.Signature.Solve

/-!
# Generic calls in two universes

Type parameters are bound alike by alike arguments: what is matched, joined, widened and held against
bounds differs in nothing but the trees that the universes keep.

* **`Signature.Mirrors R`** — signatures of related types; parameter names may differ, since they are no
  part of a key.
* **`Twins.agree_matchType`** — matching an argument, by induction on the parameter type.
* **`Twins.agree_solve`** — the type parameters of a call, with what is wrong with them.
-/

namespace FlowTyping

open Ty

/-! ## Signatures -/

/-- Signatures of related types. -/
structure Signature.Mirrors (R : Ty → Ty → Prop) (p q : Signature) : Prop where
  typeParams : List.Forall₂ R p.typeParams q.typeParams
  params : List.Forall₂ (Param.Mirrors R) p.params q.params
  ret : R p.ret q.ret

theorem Param.Mirrors.imp {R S : Ty → Ty → Prop} {p q : Param Ty} (h : p.Mirrors R q)
    (hRS : ∀ s t, R s t → S s t) : p.Mirrors S q :=
  ⟨hRS _ _ h.type, h.rest, h.optional⟩

namespace Signature.Mirrors

variable {R S : Ty → Ty → Prop} {p q : Signature}

theorem imp (h : p.Mirrors R q) (hRS : ∀ s t, R s t → S s t) : p.Mirrors S q :=
  ⟨h.typeParams.imp hRS, h.params.imp fun _ _ h => h.imp hRS, hRS _ _ h.ret⟩

theorem isGeneric_eq (h : p.Mirrors R q) : p.isGeneric = q.isGeneric := by
  have hvars := h.typeParams
  unfold isGeneric
  generalize p.typeParams = vs, q.typeParams = vs' at hvars
  cases hvars <;> rfl

theorem accepts_eq (h : p.Mirrors R q) (n : Nat) : p.accepts n = q.accepts n := by
  have harity {ps qs : List (Param Ty)} (hps : List.Forall₂ (Param.Mirrors R) ps qs) :
      arityOf ps = arityOf qs := by
    induction hps with
    | nil => rfl
    | @cons a b _ _ hab _ ih =>
      rw [arityOf, arityOf, ← hab.rest, ih]
      cases hrest : a.rest with
      | true => rfl
      | false => rw [hab.optional hrest]
  rw [accepts, accepts, arity, arity, harity h.params]

end Signature.Mirrors

namespace Ty.Mirroring

open Signature

variable {R : Ty → Ty → Prop} {s t : Ty} {vars vars' : List Ty} {p q : Signature}

theorem restType_rel (hR : Mirroring R) (h : R s t) (i : Nat) : R (restType s i) (restType t i) := by
  cases hR.mirrors h with
  | @tuple es fs r r' hes hr =>
    cases hr with
    | none => exact h
    | some hr =>
      have helem : Option.Rel (Elem.Mirrors R) es[i]? fs[i]? := by
        clear h
        induction hes generalizing i with
        | nil => exact .none
        | cons he _ ih =>
          cases i with
          | zero => exact .some he
          | succ i => exact ih i
      unfold restType
      dsimp only
      generalize es[i]? = o, fs[i]? = o' at helem
      cases helem with
      | none => exact hr
      | some he => exact he.type
  | atom hatom =>
    cases s with
    | tuple _ _ => simp [atoms] at hatom
    | _ => exact h
  | _ => exact h

theorem paramType?_rel (hR : Mirroring R) (h : p.Mirrors R q) (i : Nat) :
    Option.Rel R (p.paramType? i) (q.paramType? i) := by
  have htypeAt {ps qs : List (Param Ty)} (hps : List.Forall₂ (Param.Mirrors R) ps qs) :
      Option.Rel R (typeAt ps i) (typeAt qs i) := by
    induction hps generalizing i with
    | nil => exact .none
    | cons hab _ ih =>
      rw [typeAt.eq_def, typeAt.eq_def]
      dsimp only
      rw [hab.rest]
      split
      · exact .some (hR.restType_rel hab.type i)
      · cases i with
        | zero => exact .some hab.type
        | succ i => exact ih i
  exact htypeAt h.params

theorem isOneOf_eq (hR : Mirroring R) (hvars : List.Forall₂ R vars vars') (h : R s t) :
    isOneOf vars s = isOneOf vars' t := by
  have hany := hR.any_same_eq hvars h
  cases hR.mirrors h with
  | var _ _ => exact hany
  | atom hatom =>
    cases s with
    | var _ _ => simp [atoms] at hatom
    | _ => rfl
  | _ => rfl

theorem isClosed_eq (hR : Mirroring R) (h : R s t) : isClosed s = isClosed t := hR.freeVars_isEmpty_eq h

theorem matchedParts_rel (hR : Mirroring R) (h : R s t) :
    List.Forall₂ R (matchedParts s) (matchedParts t) := by
  cases hR.mirrors h with
  | union hm => exact hm
  | atom hatom =>
    cases s with
    | union _ => simp [atoms] at hatom
    | _ => exact .cons h .nil
  | _ => exact .cons h .nil

theorem widened_rel (hR : Mirroring R) (h : R s t) : R s.widened t.widened := by
  cases hR.mirrors h with
  | text _ | numeral _ | truth _ => exact hR.atom (by simp [atoms, widened, Literal.base])
  | atom hatom =>
    cases s with
    | literal _ => simp [atoms] at hatom
    | _ => exact h
  | _ => exact h

theorem bound?_rel (hR : Mirroring R) (h : R s t) : Option.Rel R s.bound? t.bound? := by
  cases hR.mirrors h with
  | var _ hb => exact hb
  | atom hatom =>
    cases s with
    | var _ _ => simp [atoms] at hatom
    | _ => exact .none
  | _ => exact .none

theorem keepsLiterals_eq (hR : Mirroring R) (h : R s t) : s.keepsLiterals = t.keepsLiterals := by
  have hany {ms ns : List Ty} (hms : List.Forall₂ R ms ns) (f : Ty → Bool)
      (hf : ∀ m n, R m n → f m = f n) : ms.any f = ns.any f := by
    induction hms with
    | nil => rfl
    | cons hmn _ ih => rw [List.any_cons, List.any_cons, hf _ _ hmn, ih]
  unfold keepsLiterals
  refine hany (hR.members_rel h) _ fun m n hmn => ?_
  cases hR.mirrors hmn <;> rfl

theorem mentions_eq (hR : Mirroring R) (h : p.Mirrors R q) (hst : R s t) :
    p.mentions s = q.mentions t := by
  have hparams := h.params
  unfold mentions
  generalize p.params = ps, q.params = qs at hparams
  induction hparams with
  | nil => rfl
  | cons hab _ ih =>
    rw [List.any_cons, List.any_cons, ih, hR.any_same_eq (hR.freeVars_rel hab.type) hst]

end Ty.Mirroring

/-! ## Matching -/

namespace Twins

open Signature

variable {w v : Twins} {a b s t : Ty} {vars vars' : List Ty} {bounds bounds' : Bounds}

/-- Both computations end with alike bounds. -/
abbrev AgreeSubst (w : Twins) (x y : InUniverse Subst) : Prop := w.Agree x y fun v => Subst.Mirrors v.Alike

theorem agree_bounds (hb : Subst.Mirrors w.Alike bounds bounds') :
    w.AgreeSubst (pure bounds) (pure bounds') :=
  .pure fun _ _ hwv => subst_grows hb hwv

theorem agree_raise (hb : Subst.Mirrors w.Alike bounds bounds') (hst : w.Alike s t) (hab : w.Alike a b) :
    w.AgreeSubst (bounds.raise s a) (bounds'.raise t b) := by
  refine .of_sound fun v hv hwv => ?_
  replace hb := subst_grows hb hwv
  replace hst := hst.grows hwv
  replace hab := hab.grows hwv
  have hget := hb.get?_rel hv.mirroring hst
  unfold Bounds.raise
  generalize bounds.get? s = o, bounds'.get? t = o' at hget
  cases hget with
  | none => exact agree_bounds (hb.add_rel hv.mirroring hst hab)
  | some hprev =>
    refine (agree_join hprev hab).bind fun u r r' hu hvu hr => ?_
    exact agree_bounds ((subst_grows hb hvu).add_rel hu.mirroring (hst.grows hvu) hr)

theorem agree_matchUnion {ms ns : List Ty} (hvars : List.Forall₂ w.Alike vars vars')
    (hms : List.Forall₂ w.Alike ms ns) (hab : w.Alike a b) (hb : Subst.Mirrors w.Alike bounds bounds') :
    w.AgreeSubst (matchUnion vars ms a bounds) (matchUnion vars' ns b bounds') := by
  refine .of_sound fun v hv hwv => ?_
  replace hvars := alike_grows hvars hwv
  replace hms := alike_grows hms hwv
  replace hab := hab.grows hwv
  replace hb := subst_grows hb hwv
  have hopen : List.Forall₂ v.Alike (ms.filter (isOneOf vars)) (ns.filter (isOneOf vars')) := by
    refine forall₂_filter (fun m n hmn => ?_) hms
    rw [hv.mirroring.isOneOf_eq hvars hmn]
  have hfixed : List.Forall₂ v.Alike (ms.filter (!isOneOf vars ·)) (ns.filter (!isOneOf vars' ·)) := by
    refine forall₂_filter (fun m n hmn => ?_) hms
    rw [hv.mirroring.isOneOf_eq hvars hmn]
  unfold matchUnion
  generalize ms.filter (isOneOf vars) = xs, ns.filter (isOneOf vars') = ys at hopen
  cases hopen with
  | nil => exact agree_bounds hb
  | cons hx hrest =>
    cases hrest with
    | cons _ _ => exact agree_bounds hb
    | nil =>
      refine (Same.filterM (hv.mirroring.members_rel hab) fun m _ n _ hmn =>
        (Same.anyM hfixed fun f _ f' _ hf => same_subtype hmn hf).bind fun u c _ _ =>
          Same.pure u (!c)).bind fun u xs ys _ hvu hxs => ?_
      refine (agree_union (alike_grows hxs hvu)).bind fun u' r r' hu' huu' hr => ?_
      rw [hu'.mirroring.isNever_eq hr]
      have hall := hvu.trans huu'
      split
      · exact agree_bounds (subst_grows hb hall)
      · exact agree_raise (subst_grows hb hall) (hx.grows hall) hr

/-- A parameter type is matched alike, in whichever universes. -/
def MatchedAlike (vars vars' : List Ty) (s : Ty) : Prop :=
  ∀ {w : Twins} {t a b : Ty} {bounds bounds' : Bounds}, List.Forall₂ w.Alike vars vars' →
    w.Alike s t → w.Alike a b → Subst.Mirrors w.Alike bounds bounds' →
      w.AgreeSubst (matchType vars s a bounds) (matchType vars' t b bounds')

theorem agree_matchMembers {ms ns : List Ty} (heach : ∀ m ∈ ms, MatchedAlike vars vars' m)
    (hvars : List.Forall₂ w.Alike vars vars') (hms : List.Forall₂ w.Alike ms ns) (hab : w.Alike a b)
    (hb : Subst.Mirrors w.Alike bounds bounds') :
    w.AgreeSubst (matchMembers vars ms a bounds) (matchMembers vars' ns b bounds') := by
  induction ms generalizing w ns bounds bounds' with
  | nil =>
    cases hms
    rw [matchMembers, matchMembers]
    exact agree_bounds hb
  | cons m ms ih =>
    obtain ⟨n, ns, hmn, htail, rfl⟩ := List.forall₂_cons_left_iff.1 hms
    rw [matchMembers, matchMembers]
    refine (heach m (by simp) hvars hmn hab hb).bind fun v _ _ _ hwv hb => ?_
    exact ih (fun m hm => heach m (by simp [hm])) (alike_grows hvars hwv) (alike_grows htail hwv)
      (hab.grows hwv) hb

theorem elems_grow {es fs : List (Elem Ty)} (h : List.Forall₂ (Elem.Mirrors w.Alike) es fs)
    (hwv : w.Grows v) : List.Forall₂ (Elem.Mirrors v.Alike) es fs :=
  h.imp fun _ _ h => ⟨h.type.grows hwv, h.optional⟩

theorem option_grows {o o' : Option Ty} (h : Option.Rel w.Alike o o') (hwv : w.Grows v) :
    Option.Rel v.Alike o o' :=
  optionRel_imp h fun _ _ h => h.grows hwv

theorem agree_matchElems {es fs as bs : List (Elem Ty)} {r r' : Option Ty}
    (heach : ∀ e ∈ es, MatchedAlike vars vars' e.type) (hvars : List.Forall₂ w.Alike vars vars')
    (hes : List.Forall₂ (Elem.Mirrors w.Alike) es fs) (has : List.Forall₂ (Elem.Mirrors w.Alike) as bs)
    (hr : Option.Rel w.Alike r r') (hb : Subst.Mirrors w.Alike bounds bounds') :
    w.AgreeSubst (matchElems vars es as r bounds) (matchElems vars' fs bs r' bounds') := by
  induction es generalizing w fs as bs bounds bounds' with
  | nil =>
    cases hes
    rw [matchElems, matchElems]
    exact agree_bounds hb
  | cons e es ih =>
    obtain ⟨f, fs, hef, htail, rfl⟩ := List.forall₂_cons_left_iff.1 hes
    have hrest {as bs : List (Elem Ty)} (has : List.Forall₂ (Elem.Mirrors w.Alike) as bs) {s t : Ty}
        (hst : w.Alike s t) :
        w.AgreeSubst (matchType vars e.type s bounds >>= matchElems vars es as r)
          (matchType vars' f.type t bounds' >>= matchElems vars' fs bs r') := by
      refine (heach e (by simp) hvars hef.type hst hb).bind fun v _ _ _ hwv hb => ?_
      exact ih (fun e he => heach e (by simp [he])) (alike_grows hvars hwv) (elems_grow htail hwv)
        (elems_grow has hwv) (option_grows hr hwv) hb
    cases has with
    | cons hab has =>
      rw [matchElems, matchElems]
      exact hrest has hab.type
    | nil =>
      cases hr with
      | none =>
        rw [matchElems, matchElems]
        exact agree_bounds hb
      | some hr =>
        rw [matchElems, matchElems]
        exact hrest .nil hr

theorem agree_matchProps {ps qs : List (Property Ty)} (heach : ∀ p ∈ ps, MatchedAlike vars vars' p.type)
    (hvars : List.Forall₂ w.Alike vars vars') (hps : List.Forall₂ (Property.Mirrors w.Alike) ps qs)
    (hab : w.Alike a b) (hb : Subst.Mirrors w.Alike bounds bounds') :
    w.AgreeSubst (matchProps vars ps a bounds) (matchProps vars' qs b bounds') := by
  induction ps generalizing w qs bounds bounds' with
  | nil =>
    cases hps
    rw [matchProps, matchProps]
    exact agree_bounds hb
  | cons p ps ih =>
    obtain ⟨q, qs, hpq, htail, rfl⟩ := List.forall₂_cons_left_iff.1 hps
    rw [matchProps, matchProps, hpq.name]
    have hrest {v : Twins} (hwv : w.Grows v) {bounds bounds' : Bounds}
        (hb : Subst.Mirrors v.Alike bounds bounds') :
        v.AgreeSubst (matchProps vars ps a bounds) (matchProps vars' qs b bounds') :=
      ih (fun p hp => heach p (by simp [hp])) (alike_grows hvars hwv)
        (htail.imp fun _ _ h => ⟨h.name, h.type.grows hwv, h.optional, h.readonly⟩) (hab.grows hwv) hb
    refine (agree_propertyOf hab q.name).bind fun v o o' _ hwv ho => ?_
    replace hb := subst_grows hb hwv
    cases ho with
    | none => exact hrest hwv hb
    | some hfound =>
      refine (heach p (by simp) (alike_grows hvars hwv) (hpq.type.grows hwv) hfound.type hb).bind ?_
      exact fun u _ _ _ hvu hb => hrest (hwv.trans hvu) hb

theorem agree_matchParams {ps qs as bs : List (Param Ty)}
    (heach : ∀ p ∈ ps, MatchedAlike vars vars' p.type) (hvars : List.Forall₂ w.Alike vars vars')
    (hps : List.Forall₂ (Param.Mirrors w.Alike) ps qs) (has : List.Forall₂ (Param.Mirrors w.Alike) as bs)
    (hb : Subst.Mirrors w.Alike bounds bounds') :
    w.AgreeSubst (matchParams vars ps as bounds) (matchParams vars' qs bs bounds') := by
  induction ps generalizing w qs as bs bounds bounds' with
  | nil =>
    cases hps
    rw [matchParams.eq_def, matchParams.eq_def]
    exact agree_bounds hb
  | cons p ps ih =>
    obtain ⟨q, qs, hpq, htail, rfl⟩ := List.forall₂_cons_left_iff.1 hps
    cases has with
    | nil =>
      rw [matchParams.eq_def, matchParams.eq_def]
      exact agree_bounds hb
    | cons hab has =>
      rw [matchParams, matchParams]
      refine (heach p (by simp) hvars hpq.type hab.type hb).bind fun v _ _ _ hwv hb => ?_
      exact ih (fun p hp => heach p (by simp [hp])) (alike_grows hvars hwv)
        (htail.imp fun _ _ h => h.imp fun _ _ h => h.grows hwv)
        (has.imp fun _ _ h => h.imp fun _ _ h => h.grows hwv) hb

/-- The parts of an argument are matched one after the other. -/
theorem agree_eachPart (hw : w.Sound) (hab : w.Alike a b) (hb : Subst.Mirrors w.Alike bounds bounds')
    {f g : Bounds → Ty → InUniverse Bounds}
    (hfg : ∀ (v : Twins) (s t : Ty) (bounds bounds' : Bounds), v.Sound → w.Grows v → v.Alike s t →
      Subst.Mirrors v.Alike bounds bounds' → v.AgreeSubst (f bounds s) (g bounds' t)) :
    w.AgreeSubst ((matchedParts a).foldlM f bounds) ((matchedParts b).foldlM g bounds') :=
  .foldlM (fun hvu hb => subst_grows hb hvu) (hw.mirroring.matchedParts_rel hab) hb
    fun s _ t _ hst _ bounds bounds' hwv hb =>
      .of_sound fun u hu hvu =>
        hfg u s t bounds bounds' hu (hwv.trans hvu) ((hst.grows hwv).grows hvu) (subst_grows hb hvu)

/-- **Matching an argument finds alike bounds.** The induction is on the parameter type; the argument is
taken apart along with it. -/
theorem agree_matchType (hvars : List.Forall₂ w.Alike vars vars') (hst : w.Alike s t) (hab : w.Alike a b)
    (hb : Subst.Mirrors w.Alike bounds bounds') :
    w.AgreeSubst (matchType vars s a bounds) (matchType vars' t b bounds') := by
  have hmatched : MatchedAlike vars vars' s := by
    clear hvars hst hab hb
    induction s using parts_induction with
    | step s ih =>
      intro w t a b bounds bounds' hvars hst hab hb
      refine .of_sound fun v hv hwv => ?_
      replace hvars := alike_grows hvars hwv
      replace hst := hst.grows hwv
      replace hab := hab.grows hwv
      replace hb := subst_grows hb hwv
      have hclosed := hv.mirroring.isClosed_eq hst
      cases hv.mirroring.mirrors hst with
      | var name _ =>
        rw [matchType, matchType, hv.mirroring.isOneOf_eq hvars hst]
        split
        · exact agree_raise hb hst hab
        · exact agree_bounds hb
      | union hms =>
        rw [matchType, matchType, hclosed]
        split
        · exact agree_bounds hb
        · exact agree_matchUnion hvars hms hab hb
      | inter hms =>
        rw [matchType, matchType, hclosed]
        split
        · exact agree_bounds hb
        · refine agree_eachPart hv hab hb fun u x y _ _ _ hvu hxy hb => ?_
          exact agree_matchMembers ih (alike_grows hvars hvu) (alike_grows hms hvu) hxy hb
      | object tag hps =>
        rw [matchType, matchType, hclosed]
        split
        · exact agree_bounds hb
        · refine agree_eachPart hv hab hb fun u x y _ _ _ hvu hxy hb => ?_
          exact agree_matchProps (fun p hp => ih _ (List.mem_map_of_mem hp)) (alike_grows hvars hvu)
            (hps.imp fun _ _ h => ⟨h.name, h.type.grows hvu, h.optional, h.readonly⟩) hxy hb
      | function hps hr =>
        rw [matchType, matchType, hclosed]
        split
        · exact agree_bounds hb
        · refine agree_eachPart hv hab hb fun u x y _ _ hu hvu hxy hb => ?_
          cases hu.mirroring.mirrors hxy with
          | function has hret =>
            refine (agree_matchParams (fun p hp => ih _ (List.mem_append_left _ (List.mem_map_of_mem hp)))
              (alike_grows hvars hvu) (hps.imp fun _ _ h => h.imp fun _ _ h => h.grows hvu) has hb).bind ?_
            intro u' _ _ _ huu' hb
            exact ih _ (by simp [parts]) (alike_grows hvars (hvu.trans huu')) (hr.grows (hvu.trans huu'))
              (hret.grows huu') hb
          | atom hatom =>
            cases x with
            | function _ _ => simp [atoms] at hatom
            | _ => exact agree_bounds hb
          | _ => exact agree_bounds hb
      | @tuple es fs r r' hes hr =>
        have hall : ∀ e ∈ es, MatchedAlike vars vars' e.type := fun e he =>
          ih _ (List.mem_append_left _ (List.mem_map_of_mem he))
        cases hr with
        | none =>
          rw [matchType, matchType, hclosed]
          split
          · exact agree_bounds hb
          · refine agree_eachPart hv hab hb fun u x y _ _ hu hvu hxy hb => ?_
            cases hu.mirroring.mirrors hxy with
            | tuple has hrest =>
              exact agree_matchElems hall (alike_grows hvars hvu) (elems_grow hes hvu) has hrest hb
            | atom hatom =>
              cases x with
              | tuple _ _ => simp [atoms] at hatom
              | _ => exact agree_bounds hb
            | _ => exact agree_bounds hb
        | @some r r' hr =>
          rw [matchType, matchType, hclosed]
          split
          · exact agree_bounds hb
          · refine agree_eachPart hv hab hb fun u x y _ _ hu hvu hxy hb => ?_
            cases hu.mirroring.mirrors hxy with
            | tuple has hrest =>
              -- the elements, what the argument has beyond them, and its rest
              have hback : MatchedAlike vars vars' r := ih r (by simp [parts])
              refine (agree_matchElems hall (alike_grows hvars hvu) (elems_grow hes hvu) has hrest hb).bind ?_
              intro u₁ _ _ _ h₁ hb
              have hdrop := List.forall₂_drop es.length has
              rw [← hes.length_eq]
              refine (Agree.foldlM (R := fun v => Subst.Mirrors v.Alike)
                (fun hvu hb => subst_grows hb hvu) hdrop hb fun e _ f _ hef u₂ _ _ h₂ hb => ?_).bind ?_
              · exact hback (alike_grows hvars ((hvu.trans h₁).trans h₂)) (hr.grows ((hvu.trans h₁).trans h₂))
                  (hef.type.grows (h₁.trans h₂)) hb
              · intro u₂ _ _ _ h₂ hb
                cases hrest with
                | none => exact agree_bounds hb
                | some hrest =>
                  exact hback (alike_grows hvars ((hvu.trans h₁).trans h₂))
                    (hr.grows ((hvu.trans h₁).trans h₂)) (hrest.grows (h₁.trans h₂)) hb
            | atom hatom =>
              cases x with
              | tuple _ _ => simp [atoms] at hatom
              | _ => exact agree_bounds hb
            | _ => exact agree_bounds hb
      | text _ | numeral _ | truth _ =>
        rw [matchType.eq_def, matchType.eq_def]
        exact agree_bounds hb
      | atom hatom =>
        simp only [atoms, List.mem_cons, List.not_mem_nil, or_false] at hatom
        rcases hatom with rfl | rfl | rfl | rfl | rfl | rfl | rfl <;>
          (rw [matchType.eq_def, matchType.eq_def]; exact agree_bounds hb)
  exact hmatched hvars hst hab hb

/-! ## Solving -/

variable {p q : Signature} {as bs : List Ty}

theorem signature_grows (h : p.Mirrors w.Alike q) (hwv : w.Grows v) : p.Mirrors v.Alike q :=
  h.imp fun _ _ h => h.grows hwv

theorem agree_inferFrom (hpq : p.Mirrors w.Alike q) (i : Nat) (has : List.Forall₂ w.Alike as bs)
    (hb : Subst.Mirrors w.Alike bounds bounds') :
    w.AgreeSubst (p.inferFrom i as bounds) (q.inferFrom i bs bounds') := by
  induction as generalizing w i bs bounds bounds' with
  | nil =>
    cases has
    exact agree_bounds hb
  | cons a as ih =>
    obtain ⟨b, bs, hab, htail, rfl⟩ := List.forall₂_cons_left_iff.1 has
    refine .of_sound fun v hv hwv => ?_
    replace hpq := signature_grows hpq hwv
    have hparam := hv.mirroring.paramType?_rel hpq i
    rw [inferFrom, inferFrom]
    generalize p.paramType? i = o, q.paramType? i = o' at hparam
    cases hparam with
    | none => exact agree_bounds (subst_grows hb hwv)
    | some hst =>
      refine (agree_matchType hpq.typeParams hst (hab.grows hwv) (subst_grows hb hwv)).bind ?_
      intro u _ _ _ hvu hb
      exact ih (signature_grows hpq hvu) (i + 1) (alike_grows htail (hwv.trans hvu)) hb

theorem agree_explicitBounds {vs us : List Ty} (hvs : List.Forall₂ w.Alike vs us)
    (has : List.Forall₂ w.Alike as bs) (hb : Subst.Mirrors w.Alike bounds bounds') :
    w.AgreeSubst (explicitBounds vs as bounds) (explicitBounds us bs bounds') := by
  induction vs generalizing w us as bs bounds bounds' with
  | nil =>
    cases hvs
    rw [explicitBounds.eq_def, explicitBounds.eq_def]
    exact agree_bounds hb
  | cons s vs ih =>
    obtain ⟨t, us, hst, htail, rfl⟩ := List.forall₂_cons_left_iff.1 hvs
    cases has with
    | nil =>
      rw [explicitBounds.eq_def, explicitBounds.eq_def]
      exact agree_bounds hb
    | cons hab has =>
      rw [explicitBounds, explicitBounds]
      refine (agree_raise hb hst hab).bind fun v _ _ _ hwv hb => ?_
      exact ih (alike_grows htail hwv) (alike_grows has hwv) hb

theorem agree_widen (hst : w.Alike s t) (hab : w.Alike a b) : w.AgreeTy (widen s a) (widen t b) := by
  refine .of_sound fun v hv hwv => ?_
  have hbound := hv.mirroring.bound?_rel (hst.grows hwv)
  replace hab := hab.grows hwv
  have hunion : v.AgreeTy (TypeStore.union (a.members.map widened))
      (TypeStore.union (b.members.map widened)) := by
    refine agree_union ?_
    rw [List.forall₂_map_left_iff, List.forall₂_map_right_iff]
    exact (hv.mirroring.members_rel hab).imp fun _ _ h => hv.mirroring.widened_rel h
  unfold widen
  generalize s.bound? = o, t.bound? = o' at hbound
  cases hbound with
  | none => exact hunion
  | some hbound =>
    rw [Option.map_some, Option.map_some, hv.mirroring.keepsLiterals_eq hbound]
    split
    · exact agree_self hab
    · exact hunion

theorem agree_bindParam (hpq : p.Mirrors w.Alike q) (explicit : Bool)
    (hb : Subst.Mirrors w.Alike bounds bounds') (hst : w.Alike s t) :
    w.Agree (p.bindParam explicit bounds s) (q.bindParam explicit bounds' t) fun v x y =>
      v.Alike x.1 y.1 ∧ x.2 = y.2 := by
  refine .of_sound fun v hv hwv => ?_
  replace hst := hst.grows hwv
  have hget := (subst_grows hb hwv).get?_rel hv.mirroring hst
  have hunknown : v.Alike .unknown .unknown := hv.atom (by simp [atoms])
  unfold bindParam
  generalize bounds.get? s = o, bounds'.get? t = o' at hget
  cases hget with
  | none =>
    have hbound := hv.mirroring.bound?_rel hst
    dsimp only
    rw [hv.mirroring.mentions_eq (signature_grows hpq hwv) hst]
    refine .pure fun u _ hvu => ?_
    split
    · generalize s.bound? = o, t.bound? = o' at hbound
      cases hbound with
      | none => exact ⟨hunknown.grows hvu, rfl⟩
      | some hbound => exact ⟨hbound.grows hvu, rfl⟩
    · exact ⟨hunknown.grows hvu, rfl⟩
  | some hlower =>
    have hdone {u : Twins} {x y : Ty} (hxy : u.Alike x y) :
        u.Agree (pure (x, false)) (pure (y, false)) fun v x y => v.Alike x.1 y.1 ∧ x.2 = y.2 :=
      .pure fun _ _ huu' => ⟨hxy.grows huu', rfl⟩
    cases explicit with
    | true => exact hdone hlower
    | false => exact (agree_widen hst hlower).bind fun _ _ _ _ _ hxy => hdone hxy

theorem agree_bindParams (hpq : p.Mirrors w.Alike q) (explicit : Bool)
    (hb : Subst.Mirrors w.Alike bounds bounds') {vs us : List Ty} (hvs : List.Forall₂ w.Alike vs us) :
    w.Agree (p.bindParams explicit bounds vs) (q.bindParams explicit bounds' us) fun v x y =>
      Subst.Mirrors v.Alike x.1 y.1 ∧ List.Forall₂ v.Alike x.2 y.2 := by
  induction vs generalizing w us with
  | nil =>
    cases hvs
    exact .pure fun _ _ _ => ⟨.nil, .nil⟩
  | cons s vs ih =>
    obtain ⟨t, us, hst, htail, rfl⟩ := List.forall₂_cons_left_iff.1 hvs
    rw [bindParams, bindParams]
    refine (agree_bindParam hpq explicit hb hst).bind fun v x y _ hwv hxy => ?_
    obtain ⟨x, free⟩ := x
    obtain ⟨y, free'⟩ := y
    obtain ⟨hxy, rfl⟩ : v.Alike x y ∧ free = free' := hxy
    refine (ih (signature_grows hpq hwv) (subst_grows hb hwv) (alike_grows htail hwv)).bind ?_
    intro u m n _ hvu hmn
    refine .pure fun u' _ huu' => ⟨.cons ⟨?_, ?_⟩ (subst_grows hmn.1 huu'), ?_⟩
    · exact hst.grows ((hwv.trans hvu).trans huu')
    · exact hxy.grows (hvu.trans huu')
    · have hunder := alike_grows hmn.2 huu'
      dsimp only
      split
      · exact .cons (hst.grows ((hwv.trans hvu).trans huu')) hunder
      · exact hunder

end Twins

/-- The same parameter with related types, of which the one is not within the other. -/
structure Violation.Mirrors (R : Ty → Ty → Prop) (x y : Violation) : Prop where
  param : R x.param y.param
  lower : R x.lower y.lower
  bound : R x.bound y.bound

/-- Generic calls that are solved alike. -/
structure Solution.Mirrors (R : Ty → Ty → Prop) (x y : Solution) : Prop where
  signature : x.signature.Mirrors R y.signature
  violations : List.Forall₂ (Violation.Mirrors R) x.violations y.violations
  underconstrained : List.Forall₂ R x.underconstrained y.underconstrained

namespace Solution.Mirrors

variable {R S : Ty → Ty → Prop} {x y : Solution}

theorem imp (h : x.Mirrors R y) (hRS : ∀ s t, R s t → S s t) : x.Mirrors S y where
  signature := h.signature.imp hRS
  violations := h.violations.imp fun _ _ h => ⟨hRS _ _ h.param, hRS _ _ h.lower, hRS _ _ h.bound⟩
  underconstrained := h.underconstrained.imp hRS

theorem ok_eq (h : x.Mirrors R y) : x.ok = y.ok := by
  have hv := h.violations
  unfold ok
  generalize x.violations = xs, y.violations = ys at hv
  cases hv <;> rfl

end Solution.Mirrors

namespace Twins

open Signature

variable {w v : Twins} {p q : Signature} {as bs : List Ty} {x y : Subst}

theorem agree_checkBounds (hxy : x.Mirrors w.Alike y) {vs us : List Ty}
    (hvs : List.Forall₂ w.Alike vs us) :
    w.Agree (checkBounds x vs) (checkBounds y us) fun v => List.Forall₂ (Violation.Mirrors v.Alike) := by
  induction vs generalizing w us with
  | nil =>
    cases hvs
    exact .pure fun _ _ _ => .nil
  | cons s vs ih =>
    obtain ⟨t, us, hst, htail, rfl⟩ := List.forall₂_cons_left_iff.1 hvs
    refine .of_sound fun v hv hwv => ?_
    replace hst := hst.grows hwv
    replace hxy := subst_grows hxy hwv
    have hbound := hv.mirroring.bound?_rel hst
    have hget := hxy.get?_rel hv.mirroring hst
    have hlower : v.Alike ((x.get? s).getD .unknown) ((y.get? t).getD .unknown) := by
      generalize x.get? s = o, y.get? t = o' at hget
      cases hget with
      | none => exact hv.atom (by simp [atoms])
      | some h => exact h
    rw [checkBounds, checkBounds]
    generalize s.bound? = o, t.bound? = o' at hbound
    cases hbound with
    | none => exact ih hxy (alike_grows htail hwv)
    | some hbound =>
      refine (agree_apply hbound hxy).bind fun u c d _ hvu hcd => ?_
      have hlower := hlower.grows hvu
      have hrest := ih (subst_grows hxy hvu) (alike_grows htail (hwv.trans hvu))
      refine (same_subtype hlower hcd).ite hrest ?_
      refine hrest.bind fun u' ms ns _ huu' hms => .pure fun u'' _ h => ?_
      have hall := huu'.trans h
      exact .cons ⟨hst.grows (hvu.trans hall), hlower.grows hall, hcd.grows hall⟩
        (hms.imp fun _ _ h' => ⟨h'.param.grows h, h'.lower.grows h, h'.bound.grows h⟩)

theorem agree_instantiate (hpq : p.Mirrors w.Alike q) (hxy : x.Mirrors w.Alike y) :
    w.Agree (p.instantiate x) (q.instantiate y) fun v => Signature.Mirrors v.Alike := by
  unfold instantiate
  refine (Agree.mapM (R := fun v => Param.Mirrors v.Alike)
    (fun hvu h => h.imp fun _ _ h => h.grows hvu) hpq.params fun a _ b _ hab => ?_).bind ?_
  · exact (agree_apply hab.type hxy).bind fun _ _ _ _ _ hst => .pure fun _ _ hvu =>
      ⟨hst.grows hvu, hab.rest, hab.optional⟩
  · intro v ps qs _ hwv hps
    refine (agree_apply (hpq.ret.grows hwv) (subst_grows hxy hwv)).bind fun u r r' _ hvu hr => ?_
    refine .pure fun u' hu' huu' => ⟨?_, ?_, hr.grows huu'⟩
    · have hall := (hwv.trans hvu).trans huu'
      refine forall₂_filter (fun s t hst => ?_) (alike_grows hpq.typeParams hall)
      have hget := (subst_grows hxy hall).get?_rel hu'.mirroring hst
      generalize x.get? s = o, y.get? t = o' at hget
      cases hget <;> rfl
    · exact hps.imp fun _ _ h => h.imp fun _ _ h => h.grows (hvu.trans huu')

/-- What two calls come to when their type parameters are bound. -/
inductive SolvedAlike (w : Twins) : Except TypeArgCount Solution → Except TypeArgCount Solution → Prop where
  | error (e e' : TypeArgCount) : SolvedAlike w (.error e) (.error e')
  | ok {x y : Solution} (h : x.Mirrors w.Alike y) : SolvedAlike w (.ok x) (.ok y)

/-- **The type parameters of alike calls are bound alike.** -/
theorem agree_solve (hpq : p.Mirrors w.Alike q) (has : List.Forall₂ w.Alike as bs) {ts us : List Ty}
    (hts : List.Forall₂ w.Alike ts us) :
    w.Agree (p.solve as ts) (q.solve bs us) fun v => v.SolvedAlike := by
  have hempty : ts.isEmpty = us.isEmpty := by cases hts <;> rfl
  unfold solve
  rw [hempty, hts.length_eq, hpq.typeParams.length_eq]
  split
  · exact .pure fun _ _ _ => .error _ _
  -- once the bounds are gathered, both ways of giving them go on alike
  have hrest {v : Twins} (hwv : w.Grows v) {bounds bounds' : Bounds}
      (hb : Subst.Mirrors v.Alike bounds bounds') :
      v.Agree
        (do
          let bound ← p.bindParams (!us.isEmpty) bounds p.typeParams
          let violations ← checkBounds bound.1 p.typeParams
          let signature ← p.instantiate bound.1
          return .ok { bounds, subst := bound.1, signature, violations, underconstrained := bound.2 })
        (do
          let bound ← q.bindParams (!us.isEmpty) bounds' q.typeParams
          let violations ← checkBounds bound.1 q.typeParams
          let signature ← q.instantiate bound.1
          return .ok { bounds := bounds', subst := bound.1, signature, violations, underconstrained := bound.2 })
        fun v => v.SolvedAlike := by
    have hpq := signature_grows hpq hwv
    refine (agree_bindParams hpq (!us.isEmpty) hb hpq.typeParams).bind fun u₁ m n _ h₁ hmn => ?_
    obtain ⟨hsubst, hunder⟩ := hmn
    have hpq := signature_grows hpq h₁
    refine (agree_checkBounds hsubst hpq.typeParams).bind fun u₂ xs ys _ h₂ hviolations => ?_
    refine (agree_instantiate (signature_grows hpq h₂) (subst_grows hsubst h₂)).bind ?_
    intro u₃ i j _ h₃ hij
    refine .pure fun u₄ _ h₄ => .ok ⟨signature_grows hij h₄, ?_, ?_⟩
    · have hall := h₃.trans h₄
      exact hviolations.imp fun _ _ h => ⟨h.param.grows hall, h.lower.grows hall, h.bound.grows hall⟩
    · exact alike_grows hunder ((h₂.trans h₃).trans h₄)
  dsimp only
  split
  · exact (agree_inferFrom hpq 0 has .nil).bind fun v _ _ _ hwv hb => hrest hwv hb
  · exact (agree_explicitBounds hpq.typeParams hts .nil).bind fun v _ _ _ hwv hb => hrest hwv hb

end Twins
end FlowTyping
