import FlowTyping.Proofs.Number.Shortest
import FlowTyping.Proofs.Store.Twins
import FlowTyping.Proofs.Text.Decoding
import FlowTyping.Ty.Rebuild

/-!
# Alike types

What is asked of a type by looking at its tree is answered alike for types that mirror each other, and
what is made of them mirrors each other again.

* **`Ty.Mirroring.freeVars_rel`** — the type parameters of a type.
* **`Subst.Mirrors R`** — two substitutions that bind related parameters to related types.
* **`Twins.agree_rebuild`**, **`Twins.agree_apply`** — replacing type parameters, in two universes.
-/

namespace FlowTyping

/-- Tests that agree on related elements keep related lists. -/
theorem forall₂_filter {α β : Type} {R : α → β → Prop} {p : α → Bool} {q : β → Bool} {xs : List α}
    {ys : List β} (hpq : ∀ x y, R x y → p x = q y) (h : List.Forall₂ R xs ys) :
    List.Forall₂ R (xs.filter p) (ys.filter q) :=
  List.rel_filter (fun x y hxy => by simp only [hpq x y hxy]) h

namespace Ty

variable {R : Ty → Ty → Prop} {s t s' t' : Ty} {ts us : List Ty}

namespace Mirroring

theorem same_eq (hR : Mirroring R) (h : R s t) (h' : R s' t') : s.same s' = t.same t' := by
  rw [same, same, hR.key_eq h, hR.key_eq h']

theorem any_same_eq (hR : Mirroring R) (hts : List.Forall₂ R ts us) (h : R s t) :
    (ts.any fun x => x.same s) = us.any fun x => x.same t := by
  induction hts with
  | nil => rfl
  | cons hxy _ ih => rw [List.any_cons, List.any_cons, hR.same_eq hxy h, ih]

theorem isUnit_eq (hR : Mirroring R) (h : R s t) : s.isUnit = t.isUnit := by
  cases hR.mirrors h <;> rfl

theorem all_isUnit_eq (hR : Mirroring R) (hts : List.Forall₂ R ts us) :
    ts.all isUnit = us.all isUnit := by
  induction hts with
  | nil => rfl
  | cons h _ ih => rw [List.all_cons, List.all_cons, hR.isUnit_eq h, ih]

/-! ## Type parameters -/

theorem varName_eq (hR : Mirroring R) (h : R s t) : s.varName = t.varName := by
  cases hR.mirrors h <;> rfl

theorem collectVars_var (found : List Ty) (name : String) (bound : Option Ty) :
    collectVars found (.var name bound) =
      if found.any (·.same (.var name bound)) then found
      else bound.toList.foldl collectVars (.var name bound :: found) := by
  rw [collectVars.eq_def]
  cases bound <;> rfl

/-- In a type that is no parameter itself, the parts are searched one after the other. -/
theorem collectVars_parts (found : List Ty) (hno : ∀ name bound, t ≠ .var name bound) :
    collectVars found t = t.parts.foldl collectVars found := by
  have hall (ts : List Ty) (found : List Ty) : collectAll found ts = ts.foldl collectVars found := by
    induction ts generalizing found with
    | nil => rw [collectAll, List.foldl_nil]
    | cons t ts ih => rw [collectAll, List.foldl_cons, ih]
  have hprops (ps : List (Property Ty)) (found : List Ty) :
      collectProps found ps = (ps.map (·.type)).foldl collectVars found := by
    induction ps generalizing found with
    | nil => rw [collectProps, List.map_nil, List.foldl_nil]
    | cons p ps ih => rw [collectProps, List.map_cons, List.foldl_cons, ih]
  have helems (es : List (Elem Ty)) (found : List Ty) :
      collectElems found es = (es.map (·.type)).foldl collectVars found := by
    induction es generalizing found with
    | nil => rw [collectElems, List.map_nil, List.foldl_nil]
    | cons e es ih => rw [collectElems, List.map_cons, List.foldl_cons, ih]
  have hparams (ps : List (Param Ty)) (found : List Ty) :
      collectParams found ps = (ps.map (·.type)).foldl collectVars found := by
    induction ps generalizing found with
    | nil => rw [collectParams, List.map_nil, List.foldl_nil]
    | cons p ps ih => rw [collectParams, List.map_cons, List.foldl_cons, ih]
  cases t with
  | var name bound => exact absurd rfl (hno name bound)
  | object tag props => rw [collectVars, hprops, parts]
  | tuple elems rest =>
    cases rest with
    | none => rw [collectVars, helems, parts, Option.toList, List.append_nil]
    | some rest => rw [collectVars, helems, parts, List.foldl_append, Option.toList, List.foldl_cons,
        List.foldl_nil]
  | function params ret =>
    rw [collectVars, hparams, parts, List.foldl_append, List.foldl_cons, List.foldl_nil]
  | union ms => rw [collectVars, hall, parts]
  | inter ms => rw [collectVars, hall, parts]
  | _ => rw [collectVars.eq_def, parts.eq_def, List.foldl_nil]

theorem collectVars_rel (hR : Mirroring R) (h : R s t) {found found' : List Ty}
    (hfound : List.Forall₂ R found found') :
    List.Forall₂ R (collectVars found s) (collectVars found' t) := by
  induction s using parts_induction generalizing t found found' with
  | step s ih =>
    have hfold {xs ys : List Ty} (hxs : List.Forall₂ R xs ys) (hmem : ∀ x ∈ xs, x ∈ s.parts)
        {found found' : List Ty} (hfound : List.Forall₂ R found found') :
        List.Forall₂ R (xs.foldl collectVars found) (ys.foldl collectVars found') := by
      induction hxs generalizing found found' with
      | nil => exact hfound
      | cons hxy _ ihs =>
        rw [List.foldl_cons, List.foldl_cons]
        exact ihs (fun x hx => hmem x (by simp [hx])) (ih _ (hmem _ (by simp)) hxy hfound)
    have hm := hR.mirrors h
    by_cases hvar : ∃ name bound, s = .var name bound
    · obtain ⟨name, bound, rfl⟩ := hvar
      obtain ⟨bound', rfl, hbound⟩ := hm.var_inv
      rw [collectVars_var, collectVars_var, hR.any_same_eq hfound h]
      split
      · exact hfound
      · refine hfold ?_ (fun x hx => hx) (.cons h hfound)
        exact hm.parts
    · have hno (name bound) : s ≠ .var name bound := fun heq => hvar ⟨name, bound, heq⟩
      have hno' (name bound) : t ≠ .var name bound := fun heq =>
        hm.not_var (fun name bound => hno name bound) name bound heq
      rw [collectVars_parts found hno, collectVars_parts found' hno']
      exact hfold hm.parts (fun x hx => hx) hfound

theorem freeVars_rel (hR : Mirroring R) (h : R s t) : List.Forall₂ R s.freeVars t.freeVars :=
  hR.collectVars_rel h .nil

/-- A type without type parameters mirrors such types only. -/
theorem freeVars_isEmpty_eq (hR : Mirroring R) (h : R s t) : s.freeVars.isEmpty = t.freeVars.isEmpty := by
  have hvars := hR.freeVars_rel h
  generalize s.freeVars = vs, t.freeVars = vs' at hvars
  cases hvars <;> rfl

end Mirroring
end Ty

/-! ## Substitutions -/

open Ty

/-- Two bindings of related parameters to related types. -/
structure Binding.Mirrors (R : Ty → Ty → Prop) (b c : Binding) : Prop where
  param : R b.param c.param
  type : R b.type c.type

namespace Subst

/-- The substitutions bind related parameters to related types. -/
def Mirrors (R : Ty → Ty → Prop) (x y : Subst) : Prop := List.Forall₂ (Binding.Mirrors R) x y

variable {R S : Ty → Ty → Prop} {x y : Subst} {s t s' t' : Ty}

theorem Mirrors.imp (h : Mirrors R x y) (hRS : ∀ s t, R s t → S s t) : Mirrors S x y :=
  List.Forall₂.imp (fun _ _ h => ⟨hRS _ _ h.param, hRS _ _ h.type⟩) h

theorem Mirrors.get?_rel (hR : Mirroring R) (h : Mirrors R x y) (hst : R s t) :
    Option.Rel R (x.get? s) (y.get? t) := by
  unfold Mirrors at h
  unfold get?
  induction h with
  | nil => exact .none
  | cons hb _ ih =>
    rw [List.find?_cons, List.find?_cons, hR.same_eq hb.param hst]
    split
    · exact .some hb.type
    · exact ih

theorem Mirrors.add_rel (hR : Mirroring R) (h : Mirrors R x y) (hst : R s t) (hst' : R s' t') :
    Mirrors R (x.add s s') (y.add t t') := by
  refine List.rel_append (forall₂_filter (fun b c hbc => ?_) h) (.cons ⟨hst, hst'⟩ .nil)
  rw [hR.same_eq hbc.param hst]

theorem Mirrors.isEmpty_eq (h : Mirrors R x y) : x.isEmpty = y.isEmpty := by
  cases h <;> rfl

end Subst

/-! ## Rebuilding -/

namespace Twins

variable {w v : Twins} {a b : Ty} {x y : Subst}

theorem subst_grows (h : x.Mirrors w.Alike y) (hwv : w.Grows v) : x.Mirrors v.Alike y :=
  h.imp fun _ _ h => h.grows hwv

/-- Rebuilding pieces that hold a type each changes these types alone. -/
theorem agree_pieces {α : Type} {T : α → α → Prop} {P : Twins → α → α → Prop} {xs ys : List α}
    (type : α → Ty) (withType : α → Ty → α)
    (hmono : ∀ {v u : Twins} {p q : α}, v.Grows u → P v p q → P u p q)
    (hxs : List.Forall₂ T xs ys)
    (hagree : ∀ p ∈ xs, ∀ q ∈ ys, T p q →
      w.AgreeTy (TypeStore.rebuild x (type p)) (TypeStore.rebuild y (type q)))
    (hwith : ∀ {v : Twins} {p q : α} {s t : Ty}, T p q → v.Alike s t →
      P v (withType p s) (withType q t)) :
    w.Agree
      (xs.mapM fun p => do
        let t ← TypeStore.rebuild x (type p)
        return withType p t)
      (ys.mapM fun q => do
        let t ← TypeStore.rebuild y (type q)
        return withType q t)
      fun v xs' ys' => List.Forall₂ (P v) xs' ys' ∧
        List.Forall₂ (fun p p' => ∃ t, p' = withType p t) xs xs' := by
  induction hxs with
  | nil => exact .pure fun _ _ _ => ⟨.nil, .nil⟩
  | @cons p q xs ys hpq _ ih =>
    rw [List.mapM_cons, List.mapM_cons, bind_assoc, bind_assoc]
    simp only [pure_bind]
    refine (hagree p (by simp) q (by simp) hpq).bind fun v s t _ hwv hst => ?_
    have hrest := ih fun p hp q hq => hagree p (by simp [hp]) q (by simp [hq])
    refine (hrest.grows hwv).bind fun u ps qs _ hvu hpqs => .pure fun u' _ huu' => ⟨?_, ?_⟩
    · exact .cons (hmono (hvu.trans huu') (hwith hpq hst)) (hpqs.1.imp fun _ _ h => hmono huu' h)
    · exact .cons ⟨s, rfl⟩ hpqs.2

theorem agree_rebuild (hxy : x.Mirrors w.Alike y) (hab : w.Alike a b) :
    w.AgreeTy (TypeStore.rebuild x a) (TypeStore.rebuild y b) := by
  induction a using parts_induction generalizing w b with
  | step a ih =>
    refine .of_sound fun v hv hwv => ?_
    replace hab := hab.grows hwv
    replace hxy := subst_grows hxy hwv
    have hpart (s) (hs : s ∈ a.parts) (t) (hst : v.Alike s t) :
        v.AgreeTy (TypeStore.rebuild x s) (TypeStore.rebuild y t) := ih s hs hxy hst
    have hall {ms ns : List Ty} (hms : List.Forall₂ v.Alike ms ns) (hmem : ∀ m ∈ ms, m ∈ a.parts) :
        v.Agree (TypeStore.rebuildAll x ms) (TypeStore.rebuildAll y ns) fun u =>
          List.Forall₂ u.Alike := by
      rw [Universe.rebuildAll_eq, Universe.rebuildAll_eq]
      exact .mapM (fun hvu h => h.grows hvu) hms fun m hm n _ hmn => hpart m (hmem m hm) n hmn
    cases hv.mirroring.mirrors hab with
    | text htext =>
      rw [Text.decode_injective htext, TypeStore.rebuild]
      exact agree_literal _
    | numeral hn =>
      rw [Number.render_injective hn, TypeStore.rebuild]
      exact agree_literal _
    | truth b =>
      rw [TypeStore.rebuild]
      exact agree_literal _
    | @object tag ps qs hps =>
      -- only the types of the properties change, so the names are words still
      obtain ⟨htag, hnames⟩ := hv.left.ownNamed hab.left
      rw [TypeStore.rebuild, TypeStore.rebuild, Universe.rebuildProps_eq, Universe.rebuildProps_eq]
      refine (agree_pieces (P := fun u => Property.Mirrors u.Alike) (·.type) (fun p t => { p with type := t })
        (fun hvu h => ⟨h.name, h.type.grows hvu, h.optional, h.readonly⟩) hps
        (fun p hp q _ h => hpart _ (List.mem_map_of_mem hp) _ h.type)
        fun h hst => ⟨h.name, hst, h.optional, h.readonly⟩).bind fun u ps' qs' _ _ h => ?_
      refine agree_object htag (fun p' hp' => ?_) h.1
      obtain ⟨p, hp, t, rfl⟩ := exists_mem_left h.2 hp'
      exact hnames p hp
    | @tuple es fs r s hes hr =>
      -- optional elements stay behind the others, as a tuple is built of them in this order
      have horder {es' : List (Elem Ty)}
          (h : List.Forall₂ (fun e e' : Elem Ty => ∃ t, e' = { e with type := t }) es es') :
          es'.Pairwise fun e f => e.optional = true → f.optional = true := by
        refine Universe.ordered_of_marks ?_ (hv.left.orderly hab.left)
        clear hes hab hpart hall ih
        induction h with
        | nil => rfl
        | cons he _ ih =>
          obtain ⟨t, rfl⟩ := he
          simp only [List.map_cons, ih]
      have helems := agree_pieces (P := fun u => Elem.Mirrors u.Alike) (·.type)
        (fun e t => { e with type := t }) (fun hvu h => ⟨h.type.grows hvu, h.optional⟩) hes
        (fun e he f _ h => hpart _ (List.mem_append_left _ (List.mem_map_of_mem he)) _ h.type)
        fun h hst => ⟨hst, h.optional⟩
      rw [← Universe.rebuildElems_eq, ← Universe.rebuildElems_eq] at helems
      cases hr with
      | none =>
        rw [TypeStore.rebuild, TypeStore.rebuild]
        exact helems.bind fun u es' fs' _ _ h => agree_tuple (horder h.2) h.1 .none
      | some hr =>
        rw [TypeStore.rebuild, TypeStore.rebuild]
        refine helems.bind fun u es' fs' _ hvu h => ?_
        refine ((hpart _ (by simp [parts]) _ hr).grows hvu).bind fun u' r' s' _ huu' hr' => ?_
        exact agree_tuple (horder h.2)
          (h.1.imp fun _ _ h => ⟨h.type.grows huu', h.optional⟩) (.some hr')
    | @function ps qs r s hps hr =>
      rw [TypeStore.rebuild, TypeStore.rebuild, Universe.rebuildParams_eq, Universe.rebuildParams_eq]
      refine (agree_pieces (P := fun u => Param.Mirrors u.Alike) (·.type) (fun p t => { p with type := t })
        (fun hvu h => ⟨h.type.grows hvu, h.rest, h.optional⟩) hps
        (fun p hp q _ h => hpart _ (List.mem_append_left _ (List.mem_map_of_mem hp)) _ h.type)
        fun h hst => ⟨hst, h.rest, h.optional⟩).bind fun u ps' qs' _ hvu h => ?_
      refine ((hpart r (by simp [parts]) s hr).grows hvu).bind fun u' r' s' _ huu' hr' => ?_
      exact agree_function (h.1.imp fun _ _ h => ⟨h.type.grows huu', h.rest, h.optional⟩) hr'
    | union hms =>
      rw [TypeStore.rebuild, TypeStore.rebuild]
      exact (hall hms fun m hm => hm).bind fun _ _ _ _ _ h => agree_union h
    | inter hms =>
      rw [TypeStore.rebuild, TypeStore.rebuild]
      exact (hall hms fun m hm => hm).bind fun _ _ _ _ _ h => agree_intersect h
    | var name hbound =>
      have hname : Text.IsWord name := hv.left.ownNamed hab.left
      -- alike variables are bound to alike types, or neither is bound
      have hget := hxy.get?_rel hv.mirroring hab
      cases hbound with
      | none =>
        rw [TypeStore.rebuild, TypeStore.rebuild]
        generalize x.get? _ = o, y.get? _ = o' at hget
        cases hget with
        | none => exact agree_typeVar hname .none
        | some h => exact agree_self h
      | some hbound =>
        rw [TypeStore.rebuild, TypeStore.rebuild]
        generalize x.get? _ = o, y.get? _ = o' at hget
        cases hget with
        | none =>
          exact (hpart _ (by simp [parts]) _ hbound).bind fun u s t _ _ h => agree_typeVar hname (.some h)
        | some h => exact agree_self h
    | atom ha =>
      have hself (m : Subst) : (TypeStore.rebuild m a : InUniverse Ty) = pure a := by
        simp only [atoms, List.mem_cons, List.not_mem_nil, or_false] at ha
        rcases ha with rfl | rfl | rfl | rfl | rfl | rfl | rfl <;> rw [TypeStore.rebuild] <;> simp
      rw [hself, hself]
      exact agree_self hab

theorem agree_normalize (hab : w.Alike a b) : w.AgreeTy (TypeStore.normalize a) (TypeStore.normalize b) := by
  intro v hv hwv
  have hab := hab.grows hwv
  unfold after
  rw [Universe.run_normalize hab.left, Universe.run_normalize hab.right]
  exact ⟨hv, .refl v, hab⟩

theorem agree_apply (hab : w.Alike a b) (hxy : x.Mirrors w.Alike y) :
    w.AgreeTy (TypeStore.apply a x) (TypeStore.apply b y) := by
  unfold TypeStore.apply
  rw [hxy.isEmpty_eq]
  split
  · exact agree_normalize hab
  · exact agree_rebuild hxy hab

end Twins
end FlowTyping
