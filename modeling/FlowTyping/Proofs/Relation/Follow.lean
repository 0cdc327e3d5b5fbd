import FlowTyping.Proofs.Relation.Order
import FlowTyping.Proofs.Store.Sound

/-!
# The rules in a universe

The rules for the four questions, run in a sound universe on trees that stand for types, answer what
they answer for these types without a universe. Each rule is followed for given answers to the smaller
questions that it asks.

* **`Rules.TellsSubtype`**, … — the given answers are right on one question, in every universe and for
  whichever trees stand for its types.
* **`Rules.says_subtypeRule`**, **`Rules.says_partsDisjoint`**, **`Rules.yields_combine`**, … — a rule
  answers right if the answers to the smaller questions are.
-/

namespace FlowTyping

/-- What becomes of two trees is what becomes of the types that they stand for. -/
inductive Fusion.Stands (u : Universe) : Fusion → Fusion → Prop where
  | apart : Stands u .apart .apart
  | empty : Stands u .empty .empty
  | into {t t' : Ty} (ht : u.Stands t t') : Stands u (.into t) (.into t')

/-- A search among trees comes to what it comes to among the types that they stand for. -/
inductive Sweep.Stands (u : Universe) : Sweep → Sweep → Prop where
  | stable : Stands u .stable .stable
  | empty : Stands u .empty .empty
  | fused {ms ns : List Ty} (hms : List.Forall₂ u.Stands ms ns) : Stands u (.fused ms) (.fused ns)

namespace Rules

open Ty Universe

variable (h : Hierarchy) (r : Rules InUniverse)

/-- The answers are right on a subtype question. -/
def TellsSubtype (s t : Ty) : Prop :=
  ∀ (u : Universe) (a b : Ty), u.Stands a s → u.Stands b t →
    u.Says h (r.subtype a b) (h.subtype s t)

/-- The answers are right on a question of disjointness. -/
def TellsDisjoint (s t : Ty) : Prop :=
  ∀ (u : Universe) (a b : Ty), u.Stands a s → u.Stands b t →
    u.Says h (r.disjoint a b) (h.disjoint s t)

/-- The answers are right on a question for a property. -/
def TellsProperty (t : Ty) (name : Text) : Prop :=
  ∀ (u : Universe) (a : Ty), u.Stands a t → u.Yields h (r.propertyOf a name) fun v found =>
    Option.Rel (Property.Mirrors v.Stands) found (h.propertyOf t name)

/-- The answers are right on a question for an intersection. -/
def TellsIntersect (ts : List Ty) : Prop :=
  ∀ (u : Universe) (as : List Ty), List.Forall₂ u.Stands as ts →
    u.Yields h (r.intersect as) fun v met => v.Stands met (h.intersect ts)

variable {h r} {u : Universe} {a b s t : Ty}

/-! ## Subtyping -/

theorem says_propsSubtype {ps qs : List (Property Ty)} (ha : u.Stands a s)
    (hps : List.Forall₂ (Property.Mirrors u.Stands) ps qs)
    (hprop : ∀ name, r.TellsProperty h s name)
    (hsub : ∀ q ∈ qs, ∀ p, h.propertyOf s q.name = some p → r.TellsSubtype h p.type q.type) :
    u.Says h (propsSubtype r a ps) (propsSubtype h.answers s qs).run := by
  induction hps with
  | nil => exact Says.pure h u true
  | @cons p q ps qs hpq _ ih =>
    have hih := ih fun q hq => hsub q (by simp [hq])
    rw [propsSubtype, propsSubtype, Ideal.run_bind, Ideal.run_answers_propertyOf, hpq.name]
    refine (hprop q.name u a ha).bind fun v found _ huv hfound => ?_
    replace hih := hih.grows huv
    replace hpq := Stands.prop_grows hpq huv
    cases hfind : h.propertyOf s q.name with
    | none =>
      rw [hfind] at hfound
      cases hfound
      simp only [hpq.optional, Ideal.run_ite]
      split
      · exact hih
      · exact Says.pure h v false
    | some p' =>
      rw [hfind] at hfound
      cases hfound with
      | @some p'' _ hp' =>
        have hsub := hsub q (by simp) p' hfind v _ _ hp'.type hpq.type
        simp only [hp'.optional, hp'.readonly, hpq.optional, hpq.readonly, Ideal.run_ite]
        split
        · exact Says.pure h v false
        · split
          · exact Says.pure h v false
          · exact hsub.cond hih (.pure h v false)

theorem says_objectSubtype {tag : String} {ps qs : List (Property Ty)} (ha : u.Stands a s)
    (hps : List.Forall₂ (Property.Mirrors u.Stands) ps qs)
    (hprop : ∀ name, r.TellsProperty h s name)
    (hsub : ∀ q ∈ qs, ∀ p, h.propertyOf s q.name = some p → r.TellsSubtype h p.type q.type) :
    u.Says h (objectSubtype r a tag ps) (objectSubtype h.answers s tag qs).run := by
  refine .of_sound fun v hv huv => ?_
  have hprops := (says_propsSubtype ha hps hprop hsub).grows huv
  have hm := hv.mirroring.mirrors (ha.grows huv)
  by_cases hnull : s = .null ∨ s = .undefined
  · rcases hnull with rfl | rfl
    · obtain rfl := hm.flip.eq_of_atom (by simp [atoms])
      exact Says.pure h v false
    · obtain rfl := hm.flip.eq_of_atom (by simp [atoms])
      exact Says.pure h v false
  · rw [not_or] at hnull
    have hfits : tagFits h tag a = tagFits h tag s := by
      cases hm <;> rfl
    rw [run_objectSubtype h.answers s hnull.1 hnull.2, objectSubtype]
    · cases htag : tag.isEmpty with
      | true => simpa using hprops
      | false =>
        simp only [Bool.false_eq_true, if_false, Bool.false_or]
        refine (says_hierarchy h v).bind ?_
        rw [hfits]
        cases tagFits h tag s with
        | true => simpa using hprops
        | false => exact Says.pure h v false
    · exact hm.flip.not_atom (by simp [atoms]) hnull.1
    · exact hm.flip.not_atom (by simp [atoms]) hnull.2

theorem says_elemsSubtype {restA restB restA' restB' : Option Ty}
    {elemsA elemsB elemsA' elemsB' : List (Elem Ty)}
    (hA : List.Forall₂ (Elem.Mirrors u.Stands) elemsA elemsA')
    (hB : List.Forall₂ (Elem.Mirrors u.Stands) elemsB elemsB')
    (hrA : Option.Rel u.Stands restA restA') (hrB : Option.Rel u.Stands restB restB')
    (hsub : ∀ s ∈ elemsA'.map (·.type) ++ restA'.toList,
      ∀ t ∈ elemsB'.map (·.type) ++ restB'.toList, r.TellsSubtype h s t) :
    u.Says h (elemsSubtype r restA restB elemsA elemsB)
      (elemsSubtype h.answers restA' restB' elemsA' elemsB').run := by
  -- as the comparison does, by the elements of the left side, with its rest where they have run out
  induction hA generalizing elemsB elemsB' with
  | nil =>
    induction hB with
    | nil =>
      cases hrA with
      | none =>
        simp only [elemsSubtype]
        exact Says.pure h u true
      | some hra =>
        cases hrB with
        | none =>
          simp only [elemsSubtype]
          exact Says.pure h u false
        | some hrb =>
          have hfirst := hsub _ (by simp) _ (by simp) u _ _ hra hrb
          simpa only [elemsSubtype, Ideal.run_answers_subtype] using hfirst
    | @cons eb eb' bs bs' heb _ ih =>
      have hih := ih fun s hs t ht => hsub s hs t (List.mem_cons_of_mem _ ht)
      cases hrA with
      | none =>
        simp only [elemsSubtype, heb.optional, Ideal.run_ite]
        split
        · exact Says.pure h u false
        · exact hih
      | some hra =>
        have hfirst := hsub _ (by simp) _ (by simp) u _ _ hra heb.type
        simp only [elemsSubtype, heb.optional, Ideal.run_ite, Ideal.run_bind,
          Ideal.run_answers_subtype]
        split
        · exact Says.pure h u false
        · exact hfirst.cond hih (.pure h u false)
  | @cons ea ea' as as' hea _ ih =>
    cases hB with
    | nil =>
      have hih := ih .nil fun s hs t ht => hsub s (List.mem_cons_of_mem _ hs) t ht
      cases hrB with
      | none =>
        simp only [elemsSubtype]
        exact Says.pure h u false
      | some hrb =>
        have hfirst := hsub _ (by simp) _ (by simp) u _ _ hea.type hrb
        simp only [elemsSubtype, Ideal.run_bind, Ideal.run_answers_subtype]
        exact hfirst.cond hih (.pure h u false)
    | @cons eb eb' bs bs' heb hbs =>
      have hih := ih hbs fun s hs t ht =>
        hsub s (List.mem_cons_of_mem _ hs) t (List.mem_cons_of_mem _ ht)
      have hfirst := hsub _ (by simp) _ (by simp) u _ _ hea.type heb.type
      simp only [elemsSubtype, hea.optional, heb.optional, Ideal.run_ite, Ideal.run_bind,
          Ideal.run_answers_subtype]
      split
      · exact Says.pure h u false
      · exact hfirst.cond hih (.pure h u false)

/-! ### Functions -/

theorem requiredCount_eq {R : Ty → Ty → Prop} {ps qs : List (Param Ty)}
    (hps : List.Forall₂ (Param.Mirrors R) ps qs) : requiredCount ps = requiredCount qs := by
  induction hps with
  | nil => rfl
  | @cons p q ps qs hpq _ ih =>
    have hflags : (!p.optional && !p.rest) = (!q.optional && !q.rest) := by
      rw [← hpq.rest]
      cases hr : p.rest with
      | true => simp
      | false => rw [hpq.optional hr]
    simp only [requiredCount, List.countP_cons, hflags] at ih ⊢
    rw [ih]

theorem endsInRest_eq {R : Ty → Ty → Prop} {ps qs : List (Param Ty)}
    (hps : List.Forall₂ (Param.Mirrors R) ps qs) : endsInRest ps = endsInRest qs := by
  induction hps with
  | nil => rfl
  | @cons p q ps qs hpq hps ih =>
    cases hps with
    | nil => exact hpq.rest
    | cons _ _ => simpa [endsInRest, List.getLast?_cons_cons] using ih

theorem says_paramsSubtype {paramsA paramsB paramsA' paramsB' : List (Param Ty)}
    (hA : List.Forall₂ (Param.Mirrors u.Stands) paramsA paramsA')
    (hB : List.Forall₂ (Param.Mirrors u.Stands) paramsB paramsB')
    (hsub : ∀ pa ∈ paramsA', ∀ pb ∈ paramsB', r.TellsSubtype h (argType pb) (argType pa)) :
    u.Says h (paramsSubtype r paramsA paramsB) (paramsSubtype h.answers paramsA' paramsB').run := by
  refine .of_sound fun v hv huv => ?_
  replace hA := hA.imp fun _ _ hp => Param.Mirrors.mk (hp.type.grows huv) hp.rest hp.optional
  replace hB := hB.imp fun _ _ hp => Param.Mirrors.mk (hp.type.grows huv) hp.rest hp.optional
  induction hA generalizing paramsB paramsB' with
  | nil => cases hB <;> exact Says.pure h v true
  | @cons pa pa' as as' hpa _ ih =>
    cases hB with
    | nil => exact Says.pure h v true
    | @cons pb pb' bs bs' hpb hbs =>
      have hih := ih (fun p hp q hq => hsub p (by simp [hp]) q (by simp [hq])) hbs
      refine Says.cond (hsub pa' (by simp) pb' (by simp) v _ _ ?_ ?_) hih (.pure h v false)
      · exact hv.mirroring.argType_rel hpb
      · exact hv.mirroring.argType_rel hpa

theorem says_functionSubtype {paramsA paramsB paramsA' paramsB' : List (Param Ty)}
    {retA retB retA' retB' : Ty} (hA : List.Forall₂ (Param.Mirrors u.Stands) paramsA paramsA')
    (hB : List.Forall₂ (Param.Mirrors u.Stands) paramsB paramsB') (hrA : u.Stands retA retA')
    (hrB : u.Stands retB retB')
    (hsub : ∀ pa ∈ paramsA', ∀ pb ∈ paramsB', r.TellsSubtype h (argType pb) (argType pa))
    (hret : r.TellsSubtype h retA' retB') :
    u.Says h (functionSubtype r paramsA retA paramsB retB)
      (functionSubtype h.answers paramsA' retA' paramsB' retB').run := by
  refine .of_sound fun v hv huv => ?_
  have hparams := (says_paramsSubtype hA hB hsub).grows huv
  have hundef := hv.mirroring.isUndefined_eq (hrB.grows huv)
  rw [functionSubtype, functionSubtype, hB.length_eq, requiredCount_eq hA, endsInRest_eq hB, hundef,
    Ideal.run_ite]
  split
  · exact Says.pure h v false
  · rw [Ideal.run_bind, Ideal.run_ite, Ideal.run_ite]
    refine Says.cond hparams ?_ (.pure h v false)
    split
    · exact Says.pure h v true
    · exact hret v _ _ (hrA.grows huv) (hrB.grows huv)

/-! ## Disjointness -/

theorem says_propsDisjoint {propsA propsB propsA' propsB' : List (Property Ty)}
    (hA : List.Forall₂ (Property.Mirrors u.Stands) propsA propsA')
    (hB : List.Forall₂ (Property.Mirrors u.Stands) propsB propsB')
    (hdis : ∀ pa ∈ propsA', ∀ pb ∈ propsB', r.TellsDisjoint h pa.type pb.type) :
    u.Says h (propsDisjoint r propsA propsB) (propsDisjoint h.answers propsA' propsB').run := by
  rw [propsDisjoint, propsDisjoint, Ideal.run_anyM]
  refine Says.anyM hA fun pa _ pa' hpa' hpa => ?_
  have hfind := findProp?_rel hB pa.name
  rw [hpa.name] at hfind ⊢
  generalize findProp? propsB pa'.name = found, hb' : findProp? propsB' pa'.name = found'
    at hfind ⊢
  cases hfind with
  | none => exact Says.pure h u false
  | @some pb pb' hpb =>
    simp only [hpa.optional, hpb.optional, Ideal.run_ite]
    split
    · exact Says.pure h u false
    · exact hdis pa' hpa' pb' (findProp?_some hb').1 u _ _ hpa.type hpb.type

theorem says_elemsDisjoint {elemsA elemsB elemsA' elemsB' : List (Elem Ty)}
    (hA : List.Forall₂ (Elem.Mirrors u.Stands) elemsA elemsA')
    (hB : List.Forall₂ (Elem.Mirrors u.Stands) elemsB elemsB')
    (hdis : ∀ ea ∈ elemsA', ∀ eb ∈ elemsB', r.TellsDisjoint h ea.type eb.type) :
    u.Says h (elemsDisjoint r elemsA elemsB) (elemsDisjoint h.answers elemsA' elemsB').run := by
  induction hA generalizing elemsB elemsB' with
  | nil => cases hB <;> exact Says.pure h u false
  | @cons ea ea' as as' hea _ ih =>
    cases hB with
    | nil => exact Says.pure h u false
    | @cons eb eb' bs bs' heb hbs =>
      have hih := ih hbs fun e he f hf => hdis e (by simp [he]) f (by simp [hf])
      have hfirst := hdis ea' (by simp) eb' (by simp) u _ _ hea.type heb.type
      simp only [elemsDisjoint, hea.optional, heb.optional, Ideal.run_ite, Ideal.run_bind,
        Ideal.run_answers_disjoint]
      split
      · exact hfirst.cond (.pure h u true) hih
      · exact hih

/-! ## Properties -/

theorem yields_foundProps {name : Text} {ts us : List Ty} (hts : List.Forall₂ u.Stands ts us)
    (hprop : ∀ t ∈ us, r.TellsProperty h t name) :
    u.Yields h (foundProps r name ts) fun v ps =>
      List.Forall₂ (Property.Mirrors v.Stands) ps (foundProps h.answers name us).run := by
  induction hts with
  | nil => exact .pure fun _ _ _ => .nil
  | @cons t t' ts us ht _ ih =>
    rw [foundProps, foundProps, Ideal.run_bind, Ideal.run_answers_propertyOf]
    refine (hprop t' (by simp) u t ht).bind fun v found _ huv hfound => ?_
    have hih := (ih fun t ht => hprop t (by simp [ht])).grows huv
    generalize h.propertyOf t' name = found' at hfound
    cases hfound with
    | none => exact hih
    | some hp =>
      exact hih.bind fun w ps _ hvw hps =>
        .pure fun x _ hwx => .cons (Stands.prop_grows (Stands.prop_grows hp hvw) hwx)
          (hps.imp fun _ _ hp => Stands.prop_grows hp hwx)

theorem yields_sharedProps {name : Text} {ts us : List Ty} (hts : List.Forall₂ u.Stands ts us)
    (hprop : ∀ t ∈ us, r.TellsProperty h t name) :
    u.Yields h (sharedProps r name ts) fun v ps =>
      Option.Rel (List.Forall₂ (Property.Mirrors v.Stands)) ps
        (sharedProps h.answers name us).run := by
  induction hts with
  | nil => exact .pure fun _ _ _ => .some .nil
  | @cons t t' ts us ht _ ih =>
    rw [sharedProps, sharedProps, Ideal.run_bind, Ideal.run_answers_propertyOf]
    refine (hprop t' (by simp) u t ht).bind fun v found _ huv hfound => ?_
    have hih := (ih fun t ht => hprop t (by simp [ht])).grows huv
    generalize h.propertyOf t' name = found' at hfound
    cases hfound with
    | none => exact .pure fun _ _ _ => .none
    | some hp =>
      simp only [Ideal.run_bind]
      refine hih.bind fun w ps _ hvw hps => ?_
      generalize (sharedProps h.answers name us).run = ps' at hps
      cases hps with
      | none => exact .pure fun _ _ _ => .none
      | some hps =>
        exact .pure fun x _ hwx => .some (.cons (Stands.prop_grows (Stands.prop_grows hp hvw) hwx)
          (hps.imp fun _ _ hp => Stands.prop_grows hp hwx))

/-- Merging asks for intersections of one kind of type only, if they are of that kind again. -/
theorem yields_meetProps {P : Ty → Prop} (hP : ∀ s t, P s → P t → P (h.intersect [s, t]))
    (hmeet : ∀ s t, P s → P t → r.TellsIntersect h [s, t]) {merged merged' : Property Ty}
    {ps qs : List (Property Ty)} (hm : merged.Mirrors u.Stands merged')
    (hps : List.Forall₂ (Property.Mirrors u.Stands) ps qs) (hPm : P merged'.type)
    (hPs : ∀ q ∈ qs, P q.type) :
    u.Yields h (meetProps r merged ps) fun v p =>
      p.Mirrors v.Stands (meetProps h.answers merged' qs).run := by
  induction qs generalizing u ps merged merged' with
  | nil =>
    cases hps
    exact .pure fun _ _ huv => Stands.prop_grows hm huv
  | cons q qs ih =>
    cases hps with
    | @cons p _ ps _ hp hps =>
      have hPq := hPs q (by simp)
      rw [meetProps, meetProps, Ideal.run_bind, Ideal.run_answers_intersect]
      refine (hmeet _ _ hPm hPq u _ (.cons hm.type (.cons hp.type .nil))).bind fun v met _ huv hmet => ?_
      refine ih ?_ (hps.imp fun _ _ hp => Stands.prop_grows hp huv) (hP _ _ hPm hPq)
        fun q hq => hPs q (by simp [hq])
      exact ⟨hm.name, hmet, by simp only [hm.optional, hp.optional],
        by simp only [hm.readonly, hp.readonly]⟩

/-! ## Intersections -/

/-- The answers are right on what becomes of two members. -/
def TellsCombine (h : Hierarchy) (r : Rules InUniverse) (s t : Ty) : Prop :=
  ∀ (u : Universe) (a b : Ty), u.Stands a s → u.Stands b t →
    u.Yields h (combine r a b) fun v fusion => fusion.Stands v (combine h.answers s t).run

/-- What comes of the others is put behind a property of the left side or a merged one. -/
theorem yields_mergedProps_cons {props props' propsB propsB' : List (Property Ty)} {p p' : Property Ty}
    (hrest : u.Yields h (mergedProps r propsB props) fun v ps =>
      Option.Rel (List.Forall₂ (Property.Mirrors v.Stands)) ps
        (mergedProps h.answers propsB' props').run) (hp : p.Mirrors u.Stands p') :
    u.Yields h (do match ← mergedProps r propsB props with
        | some ps => return some (p :: ps)
        | none => return none) fun v ps =>
      Option.Rel (List.Forall₂ (Property.Mirrors v.Stands)) ps
        (do match ← mergedProps h.answers propsB' props' with
          | some ps => return some (p' :: ps)
          | none => return none : Ideal h _).run := by
  rw [Ideal.run_bind]
  refine hrest.bind fun v ps _ huv hps => ?_
  generalize (mergedProps h.answers propsB' props').run = ps' at hps
  cases hps with
  | none => exact .pure fun _ _ _ => .none
  | some hps =>
    exact .pure fun w _ hvw => .some (.cons (Stands.prop_grows (Stands.prop_grows hp huv) hvw)
      (hps.imp fun _ _ hp => Stands.prop_grows hp hvw))

theorem yields_mergedProps {propsA propsB propsA' propsB' : List (Property Ty)}
    (hA : List.Forall₂ (Property.Mirrors u.Stands) propsA propsA')
    (hB : List.Forall₂ (Property.Mirrors u.Stands) propsB propsB')
    (hmeet : ∀ pa ∈ propsA', ∀ pb ∈ propsB', r.TellsIntersect h [pa.type, pb.type]) :
    u.Yields h (mergedProps r propsB propsA) fun v ps =>
      Option.Rel (List.Forall₂ (Property.Mirrors v.Stands)) ps
        (mergedProps h.answers propsB' propsA').run := by
  induction hA with
  | nil => exact .pure fun _ _ _ => .some .nil
  | @cons pa pa' as as' hpa _ ih =>
    replace ih := ih fun p hp => hmeet p (by simp [hp])
    have hfind := findProp?_rel hB pa.name
    rw [mergedProps, mergedProps]
    rw [hpa.name] at hfind ⊢
    generalize findProp? propsB pa'.name = found, hb' : findProp? propsB' pa'.name = found'
      at hfind ⊢
    cases hfind with
    | none => exact yields_mergedProps_cons ih hpa
    | @some pb pb' hpb =>
      have hpb' := (findProp?_some hb').1
      simp only [Ideal.run_bind, Ideal.run_answers_intersect]
      refine (hmeet pa' (by simp) pb' hpb' u _ (.cons hpa.type (.cons hpb.type .nil))).bind
        fun v met hv huv hmet => ?_
      rw [hv.mirroring.isNever_eq hmet, hpa.optional, hpb.optional, hpa.readonly, hpb.readonly]
      by_cases hc : ((h.intersect [pa'.type, pb'.type]).isNever &&
          !(pa'.optional && pb'.optional)) = true
      · simp only [hc, if_true, Ideal.run_pure]
        exact .pure fun _ _ _ => .none
      · simp only [hc]
        exact yields_mergedProps_cons (ih.grows huv) ⟨rfl, hmet, rfl, rfl⟩

theorem mergedTag_isWord {tagA tagB tag : String} (hA : Text.IsWord tagA) (hB : Text.IsWord tagB)
    (htag : mergedTag h tagA tagB = some tag) : Text.IsWord tag := by
  rcases eq_of_mergedTag htag with rfl | rfl
  · exact hA
  · exact hB

/-- Merging keeps the names of the left side. -/
theorem mergedProps_names {r : Rules (Ideal h)} {propsA propsB ps : List (Property Ty)}
    (hps : (mergedProps r propsB propsA).run = some ps) : ps.map (·.name) = propsA.map (·.name) := by
  induction propsA generalizing ps with
  | nil =>
    obtain rfl : [] = ps := by simpa [mergedProps] using hps
    rfl
  | cons pa rest ih =>
    rw [mergedProps] at hps
    cases hrest : (mergedProps r propsB rest).run with
    | none =>
      cases hfind : findProp? propsB pa.name with
      | none => simp [hfind, hrest] at hps
      | some pb => simp [hfind, hrest] at hps
    | some others =>
      rw [List.map_cons, ← ih hrest]
      cases hfind : findProp? propsB pa.name with
      | none =>
        obtain rfl : pa :: others = ps := by simpa [hfind, hrest] using hps
        rfl
      | some pb =>
        simp only [hfind, hrest, Ideal.run_bind, Ideal.run_ite, Ideal.run_pure] at hps
        split at hps
        · simp at hps
        · obtain rfl := Option.some.inj hps
          rfl

theorem yields_mergeObjects (ha : u.Stands a s) (hb : u.Stands b t)
    (hmeet : ∀ x ∈ s.parts, ∀ y ∈ t.parts, r.TellsIntersect h [x, y]) :
    u.Yields h (mergeObjects r a b) fun v fusion =>
      fusion.Stands v (mergeObjects h.answers s t).run := by
  refine .of_sound fun v hv huv => ?_
  have hma := hv.mirroring.mirrors (ha.grows huv)
  have hmb := hv.mirroring.mirrors (hb.grows huv)
  rw [mergeObjects.eq_def]
  split
  · rename_i tagA propsA tagB propsB
    obtain ⟨propsA', rfl, hA⟩ := hma.object_inv
    obtain ⟨propsB', rfl, hB⟩ := hmb.object_inv
    rw [mergeObjects]
    refine (says_hierarchy h v).bind ?_
    simp only [Ideal.run_bind, Ideal.run_hierarchy]
    cases htag : mergedTag h tagA tagB with
    | none => exact .pure fun _ _ _ => .apart
    | some tag =>
      have hword := mergedTag_isWord ha.named.own.1 hb.named.own.1 htag
      simp only [Ideal.run_bind]
      refine (yields_mergedProps hA hB fun pa hpa pb hpb =>
        hmeet _ (List.mem_map_of_mem hpa) _ (List.mem_map_of_mem hpb)).bind fun w ps _ hvw hps => ?_
      generalize hps' : (mergedProps h.answers propsB' propsA').run = merged at hps
      cases hps with
      | none => exact .pure fun _ _ _ => .empty
      | @some ps ps' hps =>
        replace hA := hA.imp fun _ _ hp => Stands.prop_grows hp hvw
        replace hB := hB.imp fun _ _ hp => Stands.prop_grows hp hvw
        -- the properties that only the second has
        have hextra : List.Forall₂ (Property.Mirrors w.Stands)
            (propsB.filter fun pb => (findProp? propsA pb.name).isNone)
            (propsB'.filter fun pb => (findProp? propsA' pb.name).isNone) := by
          refine List.rel_filter (fun pb pb' hpb => ?_) hB
          have hfind := findProp?_rel hA pb.name
          show (findProp? propsA pb.name).isNone = true ↔ (findProp? propsA' pb'.name).isNone = true
          rw [← hpb.name]
          generalize findProp? propsA pb.name = found, findProp? propsA' pb.name = found' at hfind
          cases hfind <;> simp
        -- each property of the merged object is one of the two, by its name
        have hnames : ∀ p ∈ ps ++ propsB.filter fun pb => (findProp? propsA pb.name).isNone,
            p.name.IsWord := by
          intro p hp
          obtain ⟨q, hq, hpq⟩ := exists_mem_right (List.rel_append hps hextra) hp
          rw [hpq.name]
          rcases List.mem_append.1 hq with hq | hq
          · have hname : q.name ∈ propsA'.map (·.name) :=
              mergedProps_names hps' ▸ List.mem_map_of_mem hq
            obtain ⟨pa, hpa, heq⟩ := List.mem_map.1 hname
            exact heq ▸ ha.named.own.2 pa hpa
          · exact hb.named.own.2 q (List.mem_filter.1 hq).1
        exact (yields_object hword hnames (List.rel_append hps hextra)).bind fun x t _ _ ht =>
          .pure fun y _ hxy => .into (ht.grows hxy)
  · rename_i hno
    rw [mergeObjects]
    · exact .pure fun _ _ _ => .apart
    · rintro tagA propsA tagB propsB rfl rfl
      obtain ⟨_, rfl, -⟩ := hma.flip.object_inv
      obtain ⟨_, rfl, -⟩ := hmb.flip.object_inv
      exact hno _ _ _ _ rfl rfl

theorem tellsCombine (hsub : r.TellsSubtype h s t) (hsub' : r.TellsSubtype h t s)
    (hdis : r.TellsDisjoint h s t)
    (hmeet : ∀ x ∈ s.parts, ∀ y ∈ t.parts, r.TellsIntersect h [x, y]) : r.TellsCombine h s t := by
  intro u a b ha hb
  rw [run_combine, combine]
  simp only [Ideal.run_answers_subtype, Ideal.run_answers_disjoint]
  refine (hsub u a b ha hb).ite (fun hyes => ?_) fun hno => ?_
  · simp only [hyes, if_true]
    exact .pure fun v _ huv => .into (ha.grows huv)
  refine (hsub' u b a hb ha).ite (fun hyes => ?_) fun hno' => ?_
  · simp only [hno, hyes, Bool.false_eq_true, if_true, if_false]
    exact .pure fun v _ huv => .into (hb.grows huv)
  refine (hdis u a b ha hb).ite (fun hyes => ?_) fun hno'' => ?_
  · simp only [hno, hno', hyes, Bool.false_eq_true, if_true, if_false]
    exact .pure fun v _ huv => .empty
  · simp only [hno, hno', hno'', Bool.false_eq_true, if_false]
    exact yields_mergeObjects ha hb hmeet

/-! ### Fusing -/

section Fusing

variable {P : Ty → Prop} (hP : ∀ a b t, P a → P b → (combine h.answers a b).run = .into t → P t)
  (hcombine : ∀ a b, P a → P b → r.TellsCombine h a b)

include hcombine

theorem yields_fuseWith {before before' rest rest' : List Ty} (ha : u.Stands a s) (hs : P s)
    (hbefore : List.Forall₂ u.Stands before before') (hrest : List.Forall₂ u.Stands rest rest')
    (hPrest : ∀ t ∈ rest', P t) :
    u.Yields h (fuseWith r a before rest) fun v sweep =>
      sweep.Stands v (fuseWith h.answers s before' rest').run := by
  induction rest' generalizing u before before' rest with
  | nil =>
    cases hrest
    exact .pure fun _ _ _ => .stable
  | cons t rest' ih =>
    cases hrest with
    | @cons b _ rest _ hb hrest =>
      rw [fuseWith, fuseWith, Ideal.run_bind]
      refine (hcombine s t hs (hPrest t (by simp)) u a b ha hb).bind fun v fusion _ huv hf => ?_
      replace hbefore := hbefore.imp fun _ _ hs => Stands.grows hs huv
      replace hrest := hrest.imp fun _ _ hs => Stands.grows hs huv
      generalize (combine h.answers s t).run = fusion' at hf
      cases hf with
      | apart =>
        exact ih (ha.grows huv) (List.rel_append hbefore (.cons (hb.grows huv) .nil)) hrest
          fun t ht => hPrest t (by simp [ht])
      | empty => exact .pure fun _ _ _ => .empty
      | into ht =>
        exact .pure fun w _ hvw => .fused ((List.rel_append (.cons ht hbefore) hrest).imp
          fun _ _ hs => Stands.grows hs hvw)

theorem yields_fuseFirst {before before' ms ns : List Ty}
    (hbefore : List.Forall₂ u.Stands before before') (hms : List.Forall₂ u.Stands ms ns)
    (hPms : ∀ t ∈ ns, P t) :
    u.Yields h (fuseFirst r before ms) fun v sweep =>
      sweep.Stands v (fuseFirst h.answers before' ns).run := by
  induction ns generalizing u before before' ms with
  | nil =>
    cases hms
    exact .pure fun _ _ _ => .stable
  | cons n ns ih =>
    cases hms with
    | @cons m _ ms _ hm hms =>
      rw [fuseFirst, fuseFirst, Ideal.run_bind]
      have hPns (t) (ht : t ∈ ns) : P t := hPms t (by simp [ht])
      refine (yields_fuseWith hcombine hm (hPms n (by simp)) .nil hms hPns).bind
        fun v sweep _ huv hsweep => ?_
      replace hbefore := hbefore.imp fun _ _ hs => Stands.grows hs huv
      replace hms := hms.imp fun _ _ hs => Stands.grows hs huv
      generalize (fuseWith h.answers n [] ns).run = sweep' at hsweep
      cases hsweep with
      | stable => exact ih (List.rel_append hbefore (.cons (hm.grows huv) .nil)) hms hPns
      | empty => exact .pure fun _ _ _ => .empty
      | fused hfused =>
        exact .pure fun w _ hvw => .fused ((List.rel_append hbefore hfused).imp
          fun _ _ hs => Stands.grows hs hvw)

include hP

theorem yields_fuseAll {ms ns : List Ty} (rounds : Nat) (hms : List.Forall₂ u.Stands ms ns)
    (hPms : ∀ t ∈ ns, P t) :
    u.Yields h (fuseAll r rounds ms) fun v members =>
      Option.Rel (List.Forall₂ v.Stands) members (fuseAll h.answers rounds ns).run := by
  induction rounds generalizing u ms ns with
  | zero => exact .pure fun v _ huv => .some (hms.imp fun _ _ hs => Stands.grows hs huv)
  | succ rounds ih =>
    rw [fuseAll, fuseAll, Ideal.run_bind]
    refine (yields_fuseFirst hcombine .nil hms hPms).bind fun v sweep _ huv hsweep => ?_
    have hfound := fuseFirst_found h.answers [] ns
    generalize (fuseFirst h.answers [] ns).run = sweep' at hsweep hfound
    cases hsweep with
    | stable =>
      exact .pure fun w _ hvw => .some (hms.imp fun _ _ hs => (Stands.grows hs huv).grows hvw)
    | empty => exact .pure fun _ _ _ => .none
    | @fused fused fused' hfused =>
      rcases hfound with ⟨heq, -⟩ | ⟨heq, -⟩ | ⟨members, heq, hf⟩
      · simp at heq
      · simp at heq
      · obtain rfl : fused' = members := by simpa using heq
        exact ih hfused (Fuses.forall hP hf hPms)

end Fusing

/-- Members that stay side by side are in their order the members of an intersection. -/
theorem settled_sortByKey {ms : List Ty} (hlen : 2 ≤ ms.length)
    (hmember : ∀ m ∈ ms, m.isMember = true ∧ m.isInter = false)
    (hapart : ms.Pairwise fun a b => (combine h.answers a b).run = .apart) :
    InterForm (sortByKey ms) ∧ SettledIn h (sortByKey ms) := by
  have hperm := sortByKey_perm ms
  refine ⟨⟨by rwa [hperm.length_eq], sortByKey_increasing ?_, fun m hm => hmember m (mem_sortByKey.1 hm)⟩, ?_⟩
  · rw [List.Nodup, List.pairwise_map]
    refine hapart.imp fun {a b} hab hkey => ?_
    rw [run_combine, Ideal.run_answers_subtype, h.subtype_of_key_eq hkey] at hab
    simp at hab
  · exact hperm.symm.pairwise (hapart.imp fun hab => .inl hab) fun hab => hab.symm

theorem yields_interOf {ms ns : List Ty} (hms : List.Forall₂ u.Stands ms ns)
    (hform : 2 ≤ ms.length → InterForm (sortByKey ms) ∧ SettledIn h (sortByKey ms)) :
    u.Yields h (interOf ms) fun v met => v.Stands met (interOf ns : Ideal h Ty).run := by
  refine .of_sound fun v hv huv => ?_
  have hms := hms.imp fun _ _ hs => Stands.grows hs huv
  have hsorted := hv.mirroring.sortByKey_rel hms
  cases hms with
  | nil => exact yields_atom (by simp [atoms])
  | cons hfirst hrest =>
    cases hrest with
    | nil => exact yields_self hfirst
    | cons _ _ =>
      obtain ⟨hform, hsettled⟩ := hform (by simp)
      refine .intern (.inter hsorted) trivial hform fun ms heq => ?_
      cases heq
      exact hsettled

end Rules
end FlowTyping
