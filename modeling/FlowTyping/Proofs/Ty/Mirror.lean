import FlowTyping.Proofs.Relation.Fusion
import FlowTyping.Proofs.Ty.Readable
import FlowTyping.Relation.Disjoint
import FlowTyping.Relation.Subtype

/-!
# Operations on mirrored types

A relation by which types mirror each other all the way down is kept by everything that is done to
types without building new ones: opening unions and intersections, dropping repetitions, sorting, and
looking at the constructor.

* **`Ty.Mirroring R`** — related types have one key and one outline, and their parts are related.
* **`Ty.Mirroring.sameKey`** — named types with one key are so related.
* **`…_rel`** — one lemma per operation.
-/

namespace FlowTyping.Ty

/-- Related types have one key and one outline, and their parts are related again. -/
structure Mirroring (R : Ty → Ty → Prop) : Prop where
  key_eq : ∀ {s t : Ty}, R s t → s.key = t.key
  mirrors : ∀ {s t : Ty}, R s t → Mirrors R s t
  atom : ∀ {t : Ty}, t ∈ atoms → R t t

theorem Mirroring.sameKey : Mirroring fun s t => s.key = t.key ∧ Named s ∧ Named t where
  key_eq h := h.1
  atom {t} ht := by
    have hnamed : Named t := by
      simp only [atoms, List.mem_cons, List.not_mem_nil, or_false] at ht
      rcases ht with rfl | rfl | rfl | rfl | rfl | rfl | rfl <;>
        exact .intro trivial (by simp [parts])
    exact ⟨rfl, hnamed, hnamed⟩
  mirrors {s t} h := by
    obtain ⟨hk, hs, ht⟩ := h
    exact (mirrors_of_key_eq hs ht hk).imp fun x hx y hy hxy => ⟨hxy, hs.part hx, ht.part hy⟩

/-! ## The constructor -/

namespace Mirrors

variable {R : Ty → Ty → Prop} {s t : Ty}

theorem flip (hm : Mirrors R s t) : Mirrors (fun x y => R y x) t s := by
  have hrel {o o' : Option Ty} (ho : Option.Rel R o o') : Option.Rel (fun x y => R y x) o' o := by
    cases ho with
    | none => exact .none
    | some h => exact .some h
  cases hm with
  | atom ht => exact .atom ht
  | text hv => exact .text hv.symm
  | numeral hn => exact .numeral hn.symm
  | truth b => exact .truth b
  | object tag hp =>
    exact .object tag (hp.flip.imp fun _ _ h => ⟨h.name.symm, h.type, h.optional.symm, h.readonly.symm⟩)
  | tuple he hr => exact .tuple (he.flip.imp fun _ _ h => ⟨h.type, h.optional.symm⟩) (hrel hr)
  | function hp hr =>
    exact .function (hp.flip.imp fun _ _ h =>
      ⟨h.type, h.rest.symm, fun hrest => (h.optional (h.rest.trans hrest)).symm⟩) hr
  | union hm => exact .union hm.flip
  | inter hm => exact .inter hm.flip
  | var name hb => exact .var name (hrel hb)

/-- Only an atom mirrors an atom. -/
theorem eq_of_atom (hm : Mirrors R s t) (hs : s ∈ atoms) : t = s := by
  cases hm with
  | atom _ => rfl
  | _ => simp [atoms] at hs

theorem object_inv {tag : String} {ps : List (Property Ty)} (hm : Mirrors R (.object tag ps) t) :
    ∃ qs, t = .object tag qs ∧ List.Forall₂ (Property.Mirrors R) ps qs := by
  cases hm with
  | atom ht => simp [atoms] at ht
  | object _ hp => exact ⟨_, rfl, hp⟩

theorem tuple_inv {es : List (Elem Ty)} {r : Option Ty} (hm : Mirrors R (.tuple es r) t) :
    ∃ fs r', t = .tuple fs r' ∧ List.Forall₂ (Elem.Mirrors R) es fs ∧ Option.Rel R r r' := by
  cases hm with
  | atom ht => simp [atoms] at ht
  | tuple he hr => exact ⟨_, _, rfl, he, hr⟩

theorem function_inv {ps : List (Param Ty)} {r : Ty} (hm : Mirrors R (.function ps r) t) :
    ∃ qs r', t = .function qs r' ∧ List.Forall₂ (Param.Mirrors R) ps qs ∧ R r r' := by
  cases hm with
  | atom ht => simp [atoms] at ht
  | function hp hr => exact ⟨_, _, rfl, hp, hr⟩

theorem union_inv {ms : List Ty} (hm : Mirrors R (.union ms) t) :
    ∃ ns, t = .union ns ∧ List.Forall₂ R ms ns := by
  cases hm with
  | atom ht => simp [atoms] at ht
  | union hm => exact ⟨_, rfl, hm⟩

theorem inter_inv {ms : List Ty} (hm : Mirrors R (.inter ms) t) :
    ∃ ns, t = .inter ns ∧ List.Forall₂ R ms ns := by
  cases hm with
  | atom ht => simp [atoms] at ht
  | inter hm => exact ⟨_, rfl, hm⟩

theorem var_inv {name : String} {b : Option Ty} (hm : Mirrors R (.var name b) t) :
    ∃ c, t = .var name c ∧ Option.Rel R b c := by
  cases hm with
  | atom ht => simp [atoms] at ht
  | var _ hb => exact ⟨_, rfl, hb⟩

theorem literal_inv {l : Literal} (hm : Mirrors R (.literal l) t) :
    ∃ l', t = .literal l' ∧ l'.base = l.base := by
  cases hm with
  | atom ht => simp [atoms] at ht
  | text _ | numeral _ | truth _ => exact ⟨_, rfl, rfl⟩

/-! What a type is not, no type is that it mirrors. -/

theorem not_atom (hm : Mirrors R s t) {x : Ty} (hx : x ∈ atoms) (hno : s = x → False)
    (heq : t = x) : False := by
  subst heq
  exact hno (hm.flip.eq_of_atom hx)

theorem not_object (hm : Mirrors R s t) (hno : ∀ tag ps, s = .object tag ps → False) (tag ps)
    (heq : t = .object tag ps) : False := by
  subst heq
  obtain ⟨_, rfl, -⟩ := hm.flip.object_inv
  exact hno _ _ rfl

theorem not_union (hm : Mirrors R s t) (hno : ∀ ms, s = .union ms → False) (ms)
    (heq : t = .union ms) : False := by
  subst heq
  obtain ⟨_, rfl, -⟩ := hm.flip.union_inv
  exact hno _ rfl

theorem not_inter (hm : Mirrors R s t) (hno : ∀ ms, s = .inter ms → False) (ms)
    (heq : t = .inter ms) : False := by
  subst heq
  obtain ⟨_, rfl, -⟩ := hm.flip.inter_inv
  exact hno _ rfl

theorem not_var (hm : Mirrors R s t) (hno : ∀ name b, s = .var name b → False) (name b)
    (heq : t = .var name b) : False := by
  subst heq
  obtain ⟨_, rfl, -⟩ := hm.flip.var_inv
  exact hno _ _ rfl

end Mirrors

namespace Mirroring

variable {R : Ty → Ty → Prop} {s t : Ty} {ts us : List Ty}

theorem isNever_eq (hR : Mirroring R) (h : R s t) : s.isNever = t.isNever := by
  cases hR.mirrors h <;> rfl

theorem isUnion_eq (hR : Mirroring R) (h : R s t) : s.isUnion = t.isUnion := by
  cases hR.mirrors h <;> rfl

theorem isInter_eq (hR : Mirroring R) (h : R s t) : s.isInter = t.isInter := by
  cases hR.mirrors h <;> rfl

theorem isMember_eq (hR : Mirroring R) (h : R s t) : s.isMember = t.isMember := by
  cases hR.mirrors h <;> rfl

theorem isUndefined_eq (hR : Mirroring R) (h : R s t) : s.isUndefined = t.isUndefined := by
  cases hR.mirrors h <;> rfl

theorem members_rel (hR : Mirroring R) (h : R s t) : List.Forall₂ R s.members t.members := by
  cases hR.mirrors h with
  | atom hatom =>
    cases s with
    | never => exact .nil
    | union ms => simp [atoms] at hatom
    | _ => exact .cons h .nil
  | union hm => exact hm
  | _ => exact .cons h .nil

/-- A type parameter has the sort of its bound, unless that is a union. -/
theorem sort?_var (name : String) (bound : Ty) :
    (Ty.var name (some bound)).sort? = if bound.isUnion then none else bound.sort? := by
  cases bound <;> rfl

theorem sort?_eq (hR : Mirroring R) (h : R s t) : s.sort? = t.sort? := by
  induction s using parts_induction generalizing t with
  | step s ih =>
    cases hR.mirrors h with
    | var name hb =>
      cases hb with
      | none => rfl
      | some hb =>
        rw [sort?_var, sort?_var, hR.isUnion_eq hb, ih _ (by simp [parts]) hb]
    | _ => rfl

theorem differInSort_eq (hR : Mirroring R) {s' t' : Ty} (h : R s t) (h' : R s' t') :
    s.differInSort s' = t.differInSort t' := by
  rw [differInSort, differInSort, hR.sort?_eq h, hR.sort?_eq h']

theorem argType_rel (hR : Mirroring R) {p q : Param Ty} (h : p.Mirrors R q) :
    R (Rules.argType p) (Rules.argType q) := by
  obtain ⟨_, s, _, rest⟩ := p
  obtain ⟨_, t, _, rest'⟩ := q
  obtain ⟨htype, rfl, -⟩ := h
  have htype : R s t := htype
  cases rest with
  | false => exact htype
  | true =>
    cases hR.mirrors htype with
    | tuple _ hr =>
      cases hr with
      | none => exact htype
      | some hr => exact hr
    | atom hatom => 
      cases s with
      | tuple _ _ => simp [atoms] at hatom
      | _ => exact htype
    | _ => exact htype

/-! ## Opening -/

theorem alternativesAll_rel_of (hts : List.Forall₂ R ts us)
    (ih : ∀ t ∈ ts, ∀ u, R t u →
      Option.Rel (List.Forall₂ R) (alternatives t) (alternatives u)) :
    Option.Rel (List.Forall₂ R) (alternativesAll ts) (alternativesAll us) := by
  induction hts with
  | nil => exact .some .nil
  | @cons t u ts us h _ ihs =>
    have hfirst := ih t (by simp) u h
    have hrest := ihs fun t ht => ih t (by simp [ht])
    rw [alternativesAll, alternativesAll]
    generalize alternatives t = a, alternatives u = b at hfirst
    generalize alternativesAll ts = as, alternativesAll us = bs at hrest
    cases hfirst with
    | none => exact .none
    | some hfirst =>
      cases hrest with
      | none => exact .none
      | some hrest => exact .some (List.rel_append hfirst hrest)

theorem alternatives_rel (hR : Mirroring R) (h : R s t) :
    Option.Rel (List.Forall₂ R) (alternatives s) (alternatives t) := by
  induction s using parts_induction generalizing t with
  | step s ih =>
    have hself (hs : alternatives s = some [s]) (ht : alternatives t = some [t]) :
        Option.Rel (List.Forall₂ R) (alternatives s) (alternatives t) := by
      rw [hs, ht]
      exact .some (.cons h .nil)
    cases hR.mirrors h with
    | atom hatom =>
      cases s with
      | never => exact .some .nil
      | unknown => exact .none
      | union ms => simp [atoms] at hatom
      | _ => exact hself rfl rfl
    | union hm =>
      rw [alternatives, alternatives]
      exact alternativesAll_rel_of hm fun t ht u htu => ih t ht htu
    | _ => exact hself (by simp [alternatives]) (by simp [alternatives])

theorem alternativesAll_rel (hR : Mirroring R) (hts : List.Forall₂ R ts us) :
    Option.Rel (List.Forall₂ R) (alternativesAll ts) (alternativesAll us) :=
  alternativesAll_rel_of hts fun _ _ _ h => hR.alternatives_rel h

theorem conjunctsAll_rel_of (hts : List.Forall₂ R ts us)
    (ih : ∀ t ∈ ts, ∀ u, R t u → Option.Rel (List.Forall₂ R) (conjuncts t) (conjuncts u)) :
    Option.Rel (List.Forall₂ R) (conjunctsAll ts) (conjunctsAll us) := by
  induction hts with
  | nil => exact .some .nil
  | @cons t u ts us h _ ihs =>
    have hfirst := ih t (by simp) u h
    have hrest := ihs fun t ht => ih t (by simp [ht])
    rw [conjunctsAll, conjunctsAll]
    generalize conjuncts t = a, conjuncts u = b at hfirst
    generalize conjunctsAll ts = as, conjunctsAll us = bs at hrest
    cases hfirst with
    | none => exact .none
    | some hfirst =>
      cases hrest with
      | none => exact .none
      | some hrest => exact .some (List.rel_append hfirst hrest)

theorem conjuncts_rel (hR : Mirroring R) (h : R s t) :
    Option.Rel (List.Forall₂ R) (conjuncts s) (conjuncts t) := by
  induction s using parts_induction generalizing t with
  | step s ih =>
    have hself (hs : conjuncts s = some [s]) (ht : conjuncts t = some [t]) :
        Option.Rel (List.Forall₂ R) (conjuncts s) (conjuncts t) := by
      rw [hs, ht]
      exact .some (.cons h .nil)
    cases hR.mirrors h with
    | atom hatom =>
      cases s with
      | never => exact .none
      | unknown => exact .some .nil
      | inter ms => simp [atoms] at hatom
      | _ => exact hself rfl rfl
    | inter hm =>
      rw [conjuncts, conjuncts]
      exact conjunctsAll_rel_of hm fun t ht u htu => ih t ht htu
    | _ => exact hself (by simp [conjuncts]) (by simp [conjuncts])

theorem conjunctsAll_rel (hR : Mirroring R) (hts : List.Forall₂ R ts us) :
    Option.Rel (List.Forall₂ R) (conjunctsAll ts) (conjunctsAll us) :=
  conjunctsAll_rel_of hts fun _ _ _ h => hR.conjuncts_rel h

/-- Both lists have their first unions at one place. -/
theorem firstUnion?_rel (hR : Mirroring R) (hts : List.Forall₂ R ts us) :
    Option.Rel (fun x y => List.Forall₂ R x.1 y.1 ∧ List.Forall₂ R x.2 y.2) (firstUnion? ts)
      (firstUnion? us) := by
  induction hts with
  | nil => exact .none
  | @cons t u ts us h hts ih =>
    have hskip (ht : firstUnion? (t :: ts) = (firstUnion? ts).map (Prod.map id (t :: ·)))
        (hu : firstUnion? (u :: us) = (firstUnion? us).map (Prod.map id (u :: ·))) :
        Option.Rel (fun x y => List.Forall₂ R x.1 y.1 ∧ List.Forall₂ R x.2 y.2)
          (firstUnion? (t :: ts)) (firstUnion? (u :: us)) := by
      rw [ht, hu]
      generalize firstUnion? ts = x, firstUnion? us = y at ih
      cases ih with
      | none => exact .none
      | some ih => exact .some ⟨ih.1, .cons h ih.2⟩
    cases hR.mirrors h with
    | union hm => exact .some ⟨hm, hts⟩
    | atom hatom =>
      cases t with
      | union ms => simp [atoms] at hatom
      | _ => exact hskip rfl rfl
    | _ => exact hskip rfl rfl

/-! ## Simplifying -/

theorem keys_eq (hR : Mirroring R) (hts : List.Forall₂ R ts us) : ts.map key = us.map key := by
  induction hts with
  | nil => rfl
  | cons h _ ih => rw [List.map_cons, List.map_cons, hR.key_eq h, ih]

theorem dedup_rel (hR : Mirroring R) (hts : List.Forall₂ R ts us) :
    List.Forall₂ R (dedup ts) (dedup us) := by
  have hkeyed (seen : List Text) : List.Forall₂ R (dedupKeyed seen (ts.map fun t => (t.key, t)))
      (dedupKeyed seen (us.map fun t => (t.key, t))) := by
    induction hts generalizing seen with
    | nil => exact .nil
    | cons h _ ih =>
      rw [List.map_cons, List.map_cons, dedupKeyed, dedupKeyed, hR.key_eq h]
      split
      · exact ih seen
      · exact .cons h (ih _)
  exact hkeyed []

theorem hasKey_eq (hR : Mirroring R) (hts : List.Forall₂ R ts us) (k : Text) :
    hasKey k ts = hasKey k us := by
  have hany (ts : List Ty) : hasKey k ts = (ts.map key).any (· == k) := by simp [hasKey, Function.comp_def]
  rw [hany, hany, hR.keys_eq hts]

theorem addBoolean_rel (hR : Mirroring R) (hts : List.Forall₂ R ts us) :
    List.Forall₂ R (addBoolean ts) (addBoolean us) := by
  rw [addBoolean, addBoolean, hR.hasKey_eq hts, hR.hasKey_eq hts, hR.hasKey_eq hts]
  split
  · exact List.rel_append hts (.cons (hR.atom (by simp [atoms])) .nil)
  · exact hts

theorem dropAbsorbed_rel (hR : Mirroring R) (hts : List.Forall₂ R ts us) :
    List.Forall₂ R (dropAbsorbed ts) (dropAbsorbed us) := by
  rw [dropAbsorbed, dropAbsorbed, hR.keys_eq hts]
  refine List.rel_filter (fun s t h => ?_) hts
  cases hR.mirrors h <;> rfl

theorem simplified_rel (hR : Mirroring R) (hts : List.Forall₂ R ts us) :
    List.Forall₂ R (simplified ts) (simplified us) :=
  hR.dropAbsorbed_rel (hR.addBoolean_rel (hR.dedup_rel hts))

theorem sortByKey_rel (hR : Mirroring R) (hts : List.Forall₂ R ts us) :
    List.Forall₂ R (sortByKey ts) (sortByKey us) := by
  -- both lists are sorted in one go, as a list of pairs
  let pairs := ts.zip us
  let le (x y : Ty × Ty) : Bool := decide (x.1.key ≤ y.1.key)
  have hlength := hts.length_eq
  have hpair : ∀ x ∈ pairs, R x.1 x.2 := fun x hx => List.forall₂_zip hts hx
  have hfst : pairs.map Prod.fst = ts := List.map_fst_zip (by omega)
  have hsnd : pairs.map Prod.snd = us := List.map_snd_zip (by omega)
  have hleft : sortByKey ts = (pairs.mergeSort le).map Prod.fst := by
    have hmap : (pairs.mergeSort le).map (fun x => (x.1.key, x.1)) =
        (pairs.map fun x => (x.1.key, x.1)).mergeSort fun a b => decide (a.1 ≤ b.1) :=
      List.map_mergeSort fun x _ y _ => rfl
    rw [sortByKey, ← hfst, List.map_map, Function.comp_def, ← hmap, List.map_map]
    rfl
  have hright : sortByKey us = (pairs.mergeSort le).map Prod.snd := by
    have hmap : (pairs.mergeSort le).map (fun x => (x.2.key, x.2)) =
        (pairs.map fun x => (x.2.key, x.2)).mergeSort fun a b => decide (a.1 ≤ b.1) :=
      List.map_mergeSort fun x hx y hy => by
        simp only [le, hR.key_eq (hpair x hx), hR.key_eq (hpair y hy)]
    rw [sortByKey, ← hsnd, List.map_map, Function.comp_def, ← hmap, List.map_map]
    rfl
  rw [hleft, hright, List.forall₂_map_left_iff, List.forall₂_map_right_iff, List.forall₂_same]
  exact fun x hx => hpair x (List.mem_mergeSort.1 hx)

/-! ## Size -/

theorem size_eq (hR : Mirroring R) (h : R s t) : s.size = t.size := by
  induction s using parts_induction generalizing t with
  | step s ih =>
    have hsum {xs ys : List Ty} (hxs : List.Forall₂ R xs ys) (hmem : ∀ x ∈ xs, x ∈ s.parts) :
        (xs.map size).sum = (ys.map size).sum := by
      induction hxs with
      | nil => rfl
      | cons h _ ihs =>
        simp only [List.map_cons, List.sum_cons]
        rw [ih _ (hmem _ (by simp)) h, ihs fun x hx => hmem x (by simp [hx])]
    rw [size_eq_parts, size_eq_parts, hsum (hR.mirrors h).parts fun x hx => hx]

theorem layer_eq (hR : Mirroring R) (h : R s t) : s.layer = t.layer := by
  cases hR.mirrors h <;> rfl

theorem opens_eq (hR : Mirroring R) (h : R s t) : s.opens = t.opens := by
  cases hR.mirrors h <;> rfl

theorem greatest_eq {f : Ty → Nat} (hts : List.Forall₂ R ts us)
    (hf : ∀ t ∈ ts, ∀ u, R t u → f t = f u) : greatest f ts = greatest f us := by
  induction hts with
  | nil => rfl
  | cons h _ ih =>
    rw [greatest_cons, greatest_cons, hf _ (by simp) _ h, ih fun t ht => hf t (by simp [ht])]

theorem depth_eq (hR : Mirroring R) (h : R s t) : s.depth = t.depth := by
  induction s using parts_induction generalizing t with
  | step s ih =>
    rw [Ty.depth_eq, Ty.depth_eq, hR.layer_eq h,
      greatest_eq (hR.mirrors h).parts fun x hx y hxy => ih x hx hxy]

theorem height_eq (hR : Mirroring R) (h : R s t) : s.height = t.height := by
  induction s using parts_induction generalizing t with
  | step s ih =>
    rw [Ty.height_eq, Ty.height_eq, hR.opens_eq h,
      greatest_eq (hR.mirrors h).parts fun x hx y hxy => ih x hx hxy]

theorem spread_eq (hR : Mirroring R) (h : R s t) : s.spread = t.spread := by
  induction s using parts_induction generalizing t with
  | step s ih =>
    cases hR.mirrors h with
    | union hm => rw [spread_union, spread_union, greatest_eq hm fun x hx y hxy => ih x hx hxy]
    | inter hm =>
      have hall {ms ns : List Ty} (hm : List.Forall₂ R ms ns)
          (ih : ∀ m ∈ ms, ∀ n, R m n → m.spread = n.spread) : spreadAll ms = spreadAll ns := by
        induction hm with
        | nil => rfl
        | cons h _ ihs =>
          rw [spreadAll_cons, spreadAll_cons, ih _ (by simp) _ h, ihs fun m hm => ih m (by simp [hm])]
      rw [spread_inter, spread_inter, hall hm fun x hx y hxy => ih x hx hxy]
    | _ => simp [spread]

theorem shallow (hR : Mirroring R) {n : Nat} (h : R s t) (hs : s.Shallow n) : t.Shallow n := by
  induction s using parts_induction generalizing t with
  | step s ih =>
    have hparts (y) (hy : y ∈ t.parts) : y.Shallow n := by
      obtain ⟨x, hx, hxy⟩ := exists_mem_left (hR.mirrors h).parts hy
      exact ih x hx hxy (hs.part hx)
    refine .intro ?_ hparts
    have hlow := hs.low
    have hheight := hR.height_eq h
    have hspread := hR.spread_eq h
    cases hR.mirrors h with
    | union hm | inter hm => exact ⟨hheight ▸ hlow.1, hspread ▸ hlow.2⟩
    | atom hatom => exact hlow
    | _ => exact Nat.le_trans (Nat.le_of_eq hheight.symm) hlow

theorem sizeAll_eq (hR : Mirroring R) (hts : List.Forall₂ R ts us) : sizeAll ts = sizeAll us := by
  induction hts with
  | nil => rfl
  | cons h _ ih => rw [sizeAll, sizeAll, hR.size_eq h, ih]

end Mirroring

/-! ## Properties -/

section Properties

variable {R : Ty → Ty → Prop} {ps qs : List (Property Ty)}

theorem findProp?_rel (hps : List.Forall₂ (Property.Mirrors R) ps qs) (name : Text) :
    Option.Rel (Property.Mirrors R) (findProp? ps name) (findProp? qs name) := by
  induction hps with
  | nil => exact .none
  | cons h _ ih =>
    rw [findProp?, findProp?, List.find?_cons, List.find?_cons, h.name]
    split
    · exact .some h
    · exact ih

theorem insertProp_rel {p q : Property Ty} (hpq : p.Mirrors R q)
    (hps : List.Forall₂ (Property.Mirrors R) ps qs) :
    List.Forall₂ (Property.Mirrors R) (TypeStore.insertProp p ps) (TypeStore.insertProp q qs) := by
  induction hps with
  | nil => exact .cons hpq .nil
  | cons h hps ih =>
    rw [TypeStore.insertProp, TypeStore.insertProp, hpq.name, h.name]
    split
    · exact .cons hpq (.cons h hps)
    · split
      · exact .cons hpq hps
      · exact .cons h ih

theorem sortProps_rel (hps : List.Forall₂ (Property.Mirrors R) ps qs) :
    List.Forall₂ (Property.Mirrors R) (TypeStore.sortProps ps) (TypeStore.sortProps qs) := by
  have hfold {sorted sorted' : List (Property Ty)}
      (hs : List.Forall₂ (Property.Mirrors R) sorted sorted') :
      List.Forall₂ (Property.Mirrors R)
        (ps.foldl (fun sorted p => TypeStore.insertProp p sorted) sorted)
        (qs.foldl (fun sorted p => TypeStore.insertProp p sorted) sorted') := by
    induction hps generalizing sorted sorted' with
    | nil => exact hs
    | cons h _ ih => exact ih (insertProp_rel h hs)
  exact hfold .nil

end Properties
end FlowTyping.Ty
