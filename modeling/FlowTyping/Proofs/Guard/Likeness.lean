import FlowTyping.Guard.Exhaustive
import FlowTyping.Proofs.Ty.Likeness

/-!
# Guards in two universes

A guard splits alike types into alike sides, whichever trees the two universes keep.

* **`Guard.Mirrors R`** — the same test, of related types.
* **`Twins.agree_splitBy`** — a type is split alternative by alternative, so it is enough to look at one.
* **`Twins.agree_narrow`** — the sides of a guard; **`Twins.agree_splitCases`** — those of a switch.
-/

namespace FlowTyping

open Ty

/-! ## Tests of alike types -/

namespace Ty.Mirroring

variable {R : Ty → Ty → Prop} {s t : Ty}

theorem allUnits_eq (hR : Mirroring R) (h : R s t) : s.allUnits = t.allUnits := by
  have hm := hR.members_rel h
  rw [allUnits, allUnits, hR.all_isUnit_eq hm]
  generalize s.members = ms, t.members = ns at hm
  cases hm <;> rfl

theorem isNullish_eq (hR : Mirroring R) (h : R s t) : Guard.isNullish s = Guard.isNullish t := by
  cases hR.mirrors h <;> rfl

theorem typeofTag_eq (hR : Mirroring R) (h : R s t) : s.typeofTag = t.typeofTag := by
  induction s using parts_induction generalizing t with
  | step s ih =>
    cases hR.mirrors h with
    | @union ms ns hm =>
      rw [typeofTag, typeofTag]
      have hcons (x y : Ty) (xs : List Ty) : sharedTag (x :: y :: xs) =
          if x.typeofTag = sharedTag (y :: xs) then x.typeofTag else "" := by
        rw [sharedTag]
        simp
      have hshared {ms ns : List Ty} (hms : List.Forall₂ R ms ns)
          (hmem : ∀ m ∈ ms, ∀ n, R m n → m.typeofTag = n.typeofTag) : sharedTag ms = sharedTag ns := by
        induction hms with
        | nil => rfl
        | cons hxy hrest ihs =>
          have hfirst := hmem _ (by simp) _ hxy
          have htail := ihs fun m hm => hmem m (by simp [hm])
          cases hrest with
          | nil => rw [sharedTag, sharedTag, hfirst]
          | cons _ _ => rw [hcons, hcons, hfirst, htail]
      exact hshared hm fun m hm n hmn => ih m hm hmn
    | @inter ms ns hm =>
      rw [typeofTag, typeofTag]
      have hfirst {ms ns : List Ty} (hms : List.Forall₂ R ms ns)
          (hmem : ∀ m ∈ ms, ∀ n, R m n → m.typeofTag = n.typeofTag) : firstTag ms = firstTag ns := by
        induction hms with
        | nil => rfl
        | cons hxy _ ihs =>
          rw [firstTag, firstTag, hmem _ (by simp) _ hxy, ihs fun m hm => hmem m (by simp [hm])]
      exact hfirst hm fun m hm n hmn => ih m hm hmn
    | var name hb =>
      cases hb with
      | none => rfl
      | some hb => rw [typeofTag, typeofTag, ih _ (by simp [parts]) hb]
    | _ => rfl

theorem truthiness_eq (hR : Mirroring R) (h : R s t) : s.truthiness = t.truthiness := by
  induction s using parts_induction generalizing t with
  | step s ih =>
    cases hR.mirrors h with
    | @union ms ns hm =>
      rw [truthiness, truthiness]
      have hany {ms ns : List Ty} (hms : List.Forall₂ R ms ns)
          (hmem : ∀ m ∈ ms, ∀ n, R m n → m.truthiness = n.truthiness) :
          truthinessAny ms = truthinessAny ns := by
        induction hms with
        | nil => rfl
        | cons hxy _ ihs =>
          rw [truthinessAny, truthinessAny, hmem _ (by simp) _ hxy, ihs fun m hm => hmem m (by simp [hm])]
      exact hany hm fun m hm n hmn => ih m hm hmn
    | @inter ms ns hm =>
      rw [truthiness, truthiness]
      have hall {ms ns : List Ty} (hms : List.Forall₂ R ms ns)
          (hmem : ∀ m ∈ ms, ∀ n, R m n → m.truthiness = n.truthiness) :
          truthinessAll ms = truthinessAll ns := by
        induction hms with
        | nil => rfl
        | cons hxy _ ihs =>
          rw [truthinessAll, truthinessAll, hmem _ (by simp) _ hxy, ihs fun m hm => hmem m (by simp [hm])]
      exact hall hm fun m hm n hmn => ih m hm hmn
    | var name hb =>
      cases hb with
      | none => rfl
      | some hb => rw [truthiness, truthiness, ih _ (by simp [parts]) hb]
    | text hv => rw [Text.decode_injective hv]
    | numeral hn => rw [Number.render_injective hn]
    | _ => rfl

end Ty.Mirroring

/-! ## Guards, predicates and splits -/

/-- The same variable, or related types. -/
inductive Comparand.Mirrors (R : Ty → Ty → Prop) : Comparand → Comparand → Prop where
  | type {s t : Ty} (h : R s t) : Mirrors R (.type s) (.type t)
  | var (name : String) : Mirrors R (.var name) (.var name)

/-- The same test, of related types. -/
inductive Guard.Mirrors (R : Ty → Ty → Prop) : Guard → Guard → Prop where
  | typeOf (var : String) (tag : Text) : Mirrors R (.typeOf var tag) (.typeOf var tag)
  | truthy (var : String) : Mirrors R (.truthy var) (.truthy var)
  | equality (op : EqOp) (left : Ref) {c d : Comparand} (h : c.Mirrors R d) :
    Mirrors R (.equality op left c) (.equality op left d)
  | has (prop : Text) (var : String) : Mirrors R (.has prop var) (.has prop var)
  | instanceOf (var tag : String) : Mirrors R (.instanceOf var tag) (.instanceOf var tag)
  | discriminant (var : String) (prop : Text) {s t : Ty} (h : R s t) :
    Mirrors R (.discriminant var prop s) (.discriminant var prop t)
  | predicate (fn : String) (position : Int) (var : String) :
    Mirrors R (.predicate fn position var) (.predicate fn position var)

structure PredicateDecl.Mirrors (R : Ty → Ty → Prop) (p q : PredicateDecl) : Prop where
  position : p.position = q.position
  narrows : R p.narrows q.narrows

/-- The same predicates, for related types. -/
def Predicates.Mirrors (R : Ty → Ty → Prop) (ps qs : Predicates) : Prop :=
  List.Forall₂ (fun p q => p.1 = q.1 ∧ p.2.Mirrors R q.2) ps qs

/-- Related sides, degraded alike. -/
structure Split.Mirrors (R : Ty → Ty → Prop) (s t : Split) : Prop where
  yes : R s.yes t.yes
  no : R s.no t.no
  degraded : s.degraded = t.degraded

/-- Related parts for the cases and for the rest, degraded alike. -/
structure CaseSplit.Mirrors (R : Ty → Ty → Prop) (c d : CaseSplit) : Prop where
  cases : List.Forall₂ R c.cases d.cases
  residual : R c.residual d.residual
  degraded : c.degraded = d.degraded

section Imp

variable {R S : Ty → Ty → Prop}

theorem Guard.Mirrors.imp {g g' : Guard} (h : g.Mirrors R g') (hRS : ∀ s t, R s t → S s t) :
    g.Mirrors S g' := by
  cases h with
  | typeOf var tag => exact .typeOf var tag
  | truthy var => exact .truthy var
  | equality op left hc =>
    cases hc with
    | type h => exact .equality op left (.type (hRS _ _ h))
    | var name => exact .equality op left (.var name)
  | has prop var => exact .has prop var
  | instanceOf var tag => exact .instanceOf var tag
  | discriminant var prop h => exact .discriminant var prop (hRS _ _ h)
  | predicate fn position var => exact .predicate fn position var

theorem Guard.Mirrors.target_eq {g g' : Guard} (h : g.Mirrors R g') : g.target = g'.target := by
  cases h <;> rfl

theorem Predicates.Mirrors.imp {ps qs : Predicates} (h : ps.Mirrors R qs)
    (hRS : ∀ s t, R s t → S s t) : ps.Mirrors S qs :=
  List.Forall₂.imp (fun _ _ h => ⟨h.1, h.2.position, hRS _ _ h.2.narrows⟩) h

theorem Predicates.Mirrors.find?_rel {ps qs : Predicates} (h : ps.Mirrors R qs) (fn : String) :
    Option.Rel (PredicateDecl.Mirrors R) (ps.find? fn) (qs.find? fn) := by
  unfold Mirrors at h
  unfold find?
  induction h with
  | nil => exact .none
  | @cons p q _ _ hpq _ ih =>
    obtain ⟨name, decl⟩ := p
    obtain ⟨name', decl'⟩ := q
    obtain ⟨rfl, hdecl⟩ := hpq
    rw [List.lookup_cons, List.lookup_cons]
    cases fn == name with
    | true => exact .some hdecl
    | false => exact ih

theorem CaseSplit.Mirrors.imp {c d : CaseSplit} (h : c.Mirrors R d) (hRS : ∀ s t, R s t → S s t) :
    c.Mirrors S d :=
  ⟨h.cases.imp hRS, hRS _ _ h.residual, h.degraded⟩

theorem Split.Mirrors.swap {s t : Split} (h : s.Mirrors R t) : s.swap.Mirrors R t.swap :=
  ⟨h.no, h.yes, h.degraded⟩

end Imp

/-! ## Splitting -/

namespace Twins

open Guard

variable {w v : Twins} {a b s t : Ty}

/-- Both computations end with alike sides. -/
abbrev AgreeSplit (w : Twins) (x y : InUniverse Split) : Prop := w.Agree x y fun v => Split.Mirrors v.Alike

/-- Two types at once. -/
abbrev AlikePair (w : Twins) (p q : Ty × Ty) : Prop := w.Alike p.1 q.1 ∧ w.Alike p.2 q.2

theorem agree_unchanged (h : w.Alike a b) (reason reason' : Degradation) :
    w.AgreeSplit (pure (.unchanged a reason)) (pure (.unchanged b reason')) :=
  .pure fun _ _ hwv => ⟨h.grows hwv, h.grows hwv, rfl⟩

theorem agree_splitBy {f g : Ty → InUniverse (Ty × Ty)} (hab : w.Alike a b)
    (hfg : ∀ (v : Twins) (s t : Ty), v.Sound → w.Grows v → v.Alike s t →
      v.Agree (f s) (g t) fun u => u.AlikePair) :
    w.AgreeSplit (splitBy a f) (splitBy b g) := by
  refine .of_sound fun v hv hwv => ?_
  have hmembers := hv.mirroring.members_rel (hab.grows hwv)
  unfold splitBy
  refine (Agree.mapM (R := fun u => u.AlikePair) (fun hvu h => ⟨h.1.grows hvu, h.2.grows hvu⟩) hmembers
    fun s _ t _ hst => hfg v s t hv hwv hst).bind fun u ps qs _ _ hps => ?_
  have hyes : List.Forall₂ u.Alike (ps.map (·.1)) (qs.map (·.1)) := by
    rw [List.forall₂_map_left_iff, List.forall₂_map_right_iff]
    exact hps.imp fun _ _ h => h.1
  have hno : List.Forall₂ u.Alike (ps.map (·.2)) (qs.map (·.2)) := by
    rw [List.forall₂_map_left_iff, List.forall₂_map_right_iff]
    exact hps.imp fun _ _ h => h.2
  refine (agree_union hyes).bind fun u₁ yes yes' _ h₁ hy => ?_
  refine (agree_union (alike_grows hno h₁)).bind fun u₂ no no' _ h₂ hn => ?_
  exact .pure fun _ _ h₃ => ⟨(hy.grows h₂).grows h₃, hn.grows h₃, rfl⟩

/-- A pair of types that are at hand. -/
theorem agree_pair (hab : w.Alike a b) (hst : w.Alike s t) :
    w.Agree (pure (a, s)) (pure (b, t)) fun v => v.AlikePair :=
  .pure fun _ _ hwv => ⟨hab.grows hwv, hst.grows hwv⟩

theorem never_mem : Ty.never ∈ atoms := by simp [atoms]

/-- What the two have in common, beside the whole type. -/
theorem agree_meet_pair (hab : w.Alike a b) (hst : w.Alike s t) :
    w.Agree (do return (← TypeStore.meet a s, a)) (do return (← TypeStore.meet b t, b)) fun v =>
      v.AlikePair :=
  (agree_meet hab hst).bind fun _ _ _ _ hwv hm => .pure fun _ _ hvu =>
    ⟨hm.grows hvu, (hab.grows hwv).grows hvu⟩

theorem agree_typeofType (w : Twins) (tag : String) :
    w.Agree (typeofType tag) (typeofType tag) fun v => Option.Rel v.Alike := by
  have hatom {t : Ty} (ht : t ∈ atoms) :
      w.Agree (pure (some t)) (pure (some t)) fun v => Option.Rel v.Alike :=
    .pure fun _ hv _ => .some (hv.atom ht)
  unfold typeofType
  split
  case h_5 =>
    have hempty : Text.IsWord "" := List.all_eq_true.1 (by decide)
    refine (agree_object hempty (by simp) .nil).bind fun v s t hv _ hst => ?_
    refine (agree_union (.cons (hv.atom (by simp [atoms])) (.cons hst .nil))).bind ?_
    exact fun _ _ _ _ _ h => .pure fun _ _ hvu => .some (h.grows hvu)
  case h_6 => exact .pure fun _ _ _ => .none
  all_goals exact hatom (by simp [atoms])

theorem agree_splitTypeof (tag : Text) (hab : w.Alike a b) :
    w.AgreeSplit (splitTypeof tag a) (splitTypeof tag b) := by
  unfold splitTypeof
  cases typeofTags.find? (fun known => Text.ofString known = tag) with
  | none => exact agree_unchanged hab _ _
  | some tag =>
    refine agree_splitBy hab fun v s t hv _ hst => ?_
    dsimp only
    rw [hv.mirroring.typeofTag_eq hst]
    split
    · exact agree_pair hst (hv.atom never_mem)
    split
    · refine (agree_typeofType v tag).bind fun u o o' _ hvu ho => ?_
      have hst := hst.grows hvu
      cases ho with
      | none => exact agree_pair hst hst
      | some hall => exact agree_meet_pair hst hall
    · exact agree_pair (hv.atom never_mem) hst

theorem agree_splitTruthy (hab : w.Alike a b) : w.AgreeSplit (splitTruthy a) (splitTruthy b) := by
  refine agree_splitBy hab fun v s t hv _ hst => ?_
  have hside (c : Bool) : v.Alike (if c then s else .never) (if c then t else .never) := by
    cases c with
    | true => exact hst
    | false => exact hv.atom never_mem
  dsimp only
  rw [hv.mirroring.truthiness_eq hst]
  exact agree_pair (hside _) (hside _)

/-- What is kept of one alternative when some single values are left out. -/
theorem agree_kept {ms ns : List Ty} (hmn : List.Forall₂ w.Alike ms ns) (hst : w.Alike s t) :
    w.Agree
      (if ms.any (·.same s) then pure [] else
        match s with
        | .boolean => do
          let yes ← TypeStore.literal (.bool true)
          let no ← TypeStore.literal (.bool false)
          return [yes, no].filter fun x => !ms.any (·.same x)
        | _ => pure [s])
      (if ns.any (·.same t) then pure [] else
        match t with
        | .boolean => do
          let yes ← TypeStore.literal (.bool true)
          let no ← TypeStore.literal (.bool false)
          return [yes, no].filter fun x => !ns.any (·.same x)
        | _ => pure [t])
      fun v => List.Forall₂ v.Alike := by
  refine .of_sound fun v hv hwv => ?_
  replace hmn := alike_grows hmn hwv
  replace hst := hst.grows hwv
  rw [hv.mirroring.any_same_eq hmn hst]
  split
  · exact .pure fun _ _ _ => .nil
  have hself : v.Agree (pure [s]) (pure [t]) fun v => List.Forall₂ v.Alike :=
    .pure fun _ _ hvu => .cons (hst.grows hvu) .nil
  -- `boolean` is kept as the literals that are not taken, any other member as it is
  by_cases hs : s = .boolean
  · subst hs
    obtain rfl : t = .boolean := (hv.mirroring.mirrors hst).eq_of_atom (by simp [atoms])
    refine (agree_literal _).bind fun u₁ yes yes' _ h₁ hyes => ?_
    refine (agree_literal _).bind fun u₂ no no' _ h₂ hno => .pure fun u₃ hu₃ h₃ => ?_
    have hmn := alike_grows hmn ((h₁.trans h₂).trans h₃)
    have hboth : List.Forall₂ u₃.Alike [yes, no] [yes', no'] :=
      .cons ((hyes.grows h₂).grows h₃) (.cons (hno.grows h₃) .nil)
    refine forall₂_filter (fun x y hxy => ?_) hboth
    rw [hu₃.mirroring.any_same_eq hmn hxy]
  · have ht : t ≠ .boolean := fun heq =>
      (hv.mirroring.mirrors hst).not_atom (by simp [atoms]) (fun h => hs h) heq
    split
    · exact absurd rfl hs
    · exact hself

theorem agree_without (hab : w.Alike a b) (hst : w.Alike s t) :
    w.AgreeTy (without a s) (without b t) := by
  refine .of_sound fun v hv hwv => ?_
  replace hab := hab.grows hwv
  replace hst := hst.grows hwv
  have hunits := hv.mirroring.members_rel hst
  unfold without
  dsimp only
  rw [hv.mirroring.all_isUnit_eq hunits]
  split
  · refine (Agree.mapM (R := fun u => List.Forall₂ u.Alike) (fun hvu h => alike_grows h hvu)
      (hv.mirroring.members_rel hab) fun x _ y _ hxy => ?_).bind fun u xs ys _ _ h => ?_
    · exact agree_kept hunits hxy
    · exact agree_union (List.rel_flatten h)
  · exact agree_self hab

/-- What a property holds: `undefined`, too, if it may be left out. -/
theorem agree_field {p q : Property Ty} (h : p.Mirrors w.Alike q) :
    w.AgreeTy (if p.optional then TypeStore.union [p.type, .undefined] else pure p.type)
      (if q.optional then TypeStore.union [q.type, .undefined] else pure q.type) := by
  refine .of_sound fun v hv hwv => ?_
  have htype := h.type.grows hwv
  rw [h.optional]
  split
  · exact agree_union (.cons htype (.cons (hv.atom (by simp [atoms])) .nil))
  · exact agree_self htype

/-- What a property holds, as the start of a longer computation. -/
theorem agree_field_bind {p q : Property Ty} (h : p.Mirrors w.Alike q) {γ δ : Type}
    {f : Ty → InUniverse γ} {g : Ty → InUniverse δ} {S : Twins → γ → δ → Prop}
    (hfg : ∀ (v : Twins) (s t : Ty), v.Sound → w.Grows v → v.Alike s t → v.Agree (f s) (g t) S) :
    w.Agree
      (if p.optional then TypeStore.union [p.type, .undefined] >>= f else pure p.type >>= f)
      (if q.optional then TypeStore.union [q.type, .undefined] >>= g else pure q.type >>= g) S := by
  have hite {γ : Type} (c : Bool) (x y : InUniverse Ty) (f : Ty → InUniverse γ) :
      (if c then x >>= f else y >>= f) = (if c then x else y) >>= f := by
    cases c <;> rfl
  rw [hite, hite]
  exact (agree_field h).bind hfg

theorem agree_discriminant_go (prop : Text) (hab : w.Alike a b) (hst : w.Alike s t) {ts us : List Ty}
    (hts : List.Forall₂ w.Alike ts us) {yes no yes' no' : List Ty} (hyes : List.Forall₂ w.Alike yes yes')
    (hno : List.Forall₂ w.Alike no no') :
    w.AgreeSplit (splitDiscriminant.go a prop s yes no ts) (splitDiscriminant.go b prop t yes' no' us) := by
  induction ts generalizing w us yes no yes' no' with
  | nil =>
    cases hts
    rw [splitDiscriminant.go, splitDiscriminant.go]
    refine (agree_union hyes).bind fun u₁ y y' _ h₁ hy => ?_
    refine (agree_union (alike_grows hno h₁)).bind fun u₂ n n' _ h₂ hn => ?_
    exact .pure fun _ _ h₃ => ⟨(hy.grows h₂).grows h₃, hn.grows h₃, rfl⟩
  | cons m ms ih =>
    obtain ⟨n, ns, hmn, hms, rfl⟩ := List.forall₂_cons_left_iff.1 hts
    rw [splitDiscriminant.go, splitDiscriminant.go]
    refine (agree_propertyOf hmn prop).bind fun u₁ o o' _ h₁ ho => ?_
    cases ho with
    | none => exact agree_unchanged (hab.grows h₁) _ _
    | some hp =>
      refine agree_field_bind hp fun u₂ field field' hu₂ h₂ hfield => ?_
      have hab := (hab.grows h₁).grows h₂
      dsimp only
      rw [hu₂.mirroring.allUnits_eq hfield]
      split
      · exact agree_unchanged hab _ _
      have hst := (hst.grows h₁).grows h₂
      refine (agree_meet hfield hst).bind fun u₃ met met' hu₃ h₃ hmet => ?_
      refine (agree_without (hfield.grows h₃) (hst.grows h₃)).bind fun u₄ left left' hu₄ h₄ hleft => ?_
      have hall : w.Grows u₄ := ((h₁.trans h₂).trans h₃).trans h₄
      have hadd (c : Bool) {xs ys : List Ty} (hxs : List.Forall₂ w.Alike xs ys) :
          List.Forall₂ u₄.Alike (if c then xs else xs ++ [m]) (if c then ys else ys ++ [n]) := by
        cases c with
        | true => exact alike_grows hxs hall
        | false => exact List.rel_append (alike_grows hxs hall) (.cons (hmn.grows hall) .nil)
      rw [hu₃.mirroring.isNever_eq hmet, hu₄.mirroring.isNever_eq hleft]
      exact ih ((hab.grows h₃).grows h₄) ((hst.grows h₃).grows h₄)
        (alike_grows hms hall) (hadd _ hyes) (hadd _ hno)

theorem agree_splitDiscriminant (prop : Text) (hab : w.Alike a b) (hst : w.Alike s t) :
    w.AgreeSplit (splitDiscriminant a prop s) (splitDiscriminant b prop t) := by
  refine .of_sound fun v hv hwv => ?_
  replace hab := hab.grows hwv
  replace hst := hst.grows hwv
  unfold splitDiscriminant
  rw [hv.mirroring.allUnits_eq hst]
  split
  · exact agree_unchanged hab _ _
  · exact agree_discriminant_go prop hab hst (hv.mirroring.members_rel hab) .nil .nil

/-- What follows in a test for equality, once the right side is known. -/
def splitAgainst (op : EqOp) (prop : Option Text) (current right : Ty) : InUniverse Split := do
  let split ← match prop with
    | some prop => splitDiscriminant current prop right
    | none =>
      let yes ← TypeStore.meet current right
      let no ← without current right
      pure { yes, no }
  return if op.negated then split.swap else split

theorem agree_splitAgainst (op : EqOp) (prop : Option Text) (hab : w.Alike a b) (hst : w.Alike s t) :
    w.AgreeSplit (splitAgainst op prop a s) (splitAgainst op prop b t) := by
  have hturn {v : Twins} {p q : Split} (hpq : p.Mirrors v.Alike q) :
      v.AgreeSplit (pure (if op.negated then p.swap else p)) (pure (if op.negated then q.swap else q)) := by
    refine .pure fun u _ h => ?_
    have hpq : Split.Mirrors u.Alike p q := ⟨hpq.yes.grows h, hpq.no.grows h, hpq.degraded⟩
    split
    · exact hpq.swap
    · exact hpq
  cases prop with
  | some prop => exact (agree_splitDiscriminant prop hab hst).bind fun _ _ _ _ _ hpq => hturn hpq
  | none =>
    refine (agree_meet hab hst).bind fun v y y' _ hwv hy => ?_
    refine (agree_without (hab.grows hwv) (hst.grows hwv)).bind fun u n n' _ hvu hn => ?_
    exact hturn ⟨hy.grows hvu, hn, rfl⟩

theorem agree_splitEquality (op : EqOp) (prop : Option Text) (hab : w.Alike a b) (hst : w.Alike s t) :
    w.AgreeSplit (splitEquality op prop s a) (splitEquality op prop t b) := by
  refine .of_sound fun v hv hwv => ?_
  replace hab := hab.grows hwv
  replace hst := hst.grows hwv
  have hrest {u : Twins} (hvu : v.Grows u) {r r' : Ty} (hr : u.Alike r r') :
      u.AgreeSplit (splitAgainst op prop a r) (splitAgainst op prop b r') :=
    agree_splitAgainst op prop (hab.grows hvu) hr
  unfold splitEquality
  dsimp only
  rw [hv.mirroring.isNullish_eq hst]
  split
  · have hnull : v.Alike .null .null := hv.atom (by simp [atoms])
    have hundefined : v.Alike .undefined .undefined := hv.atom (by simp [atoms])
    exact (agree_union (.cons hnull (.cons hundefined .nil))).bind fun _ _ _ _ hvu hr => hrest hvu hr
  · exact (agree_self hst).bind fun _ _ _ _ hvu hr => hrest hvu hr

/-- Looks a property up: `missing` is what passes the test where there is none. -/
def splitLookup (prop : Text) (missing t : Ty) : InUniverse (Ty × Ty) := do
  match ← TypeStore.propertyOf t prop with
  | none => return (missing, t)
  | some p => return (t, if p.optional then t else .never)

theorem agree_splitLookup (prop : Text) (hab : w.Alike a b) (hst : w.Alike s t) :
    w.Agree (splitLookup prop a s) (splitLookup prop b t) fun v => v.AlikePair := by
  refine (agree_propertyOf hst prop).bind fun v o o' hv hwv ho => ?_
  replace hst := hst.grows hwv
  cases ho with
  | none => exact agree_pair (hab.grows hwv) hst
  | some hp =>
    dsimp only
    rw [hp.optional]
    split
    · exact agree_pair hst hst
    · exact agree_pair hst (hv.atom never_mem)

theorem agree_splitHas (prop : Text) (hab : w.Alike a b) :
    w.AgreeSplit (splitHas prop a) (splitHas prop b) := by
  refine agree_splitBy hab fun v s t hv _ hst => ?_
  have hnever := hv.atom never_mem
  cases hv.mirroring.mirrors hst with
  | object _ _ | tuple _ _ | function _ _ | inter _ => exact agree_splitLookup prop hnever hst
  | var _ _ => exact agree_splitLookup prop hst hst
  | text _ | numeral _ | truth _ | union _ => exact agree_pair hnever hst
  | atom hatom =>
    cases s with
    | unknown => exact agree_pair hst hst
    | never | null | undefined | boolean | number | string => exact agree_pair hnever hst
    | _ => simp [atoms] at hatom

theorem agree_instances (tag : String) {h k : Hierarchy} (hderives : h.derives = k.derives)
    (hab : w.Alike a b) (hst : w.Alike s t) :
    w.AgreeSplit
      (splitBy a fun m => do
        match m with
        | .object own _ =>
          if own.isEmpty then return (← TypeStore.meet m s, m)
          else if h.derives own tag then return (m, .never)
          else if h.derives tag own then return (s, m)
          else return (.never, m)
        | .unknown => return (s, m)
        | .never | .null | .undefined | .boolean | .number | .string | .literal _ => return (.never, m)
        | _ => return (← TypeStore.meet m s, m))
      (splitBy b fun m => do
        match m with
        | .object own _ =>
          if own.isEmpty then return (← TypeStore.meet m t, m)
          else if k.derives own tag then return (m, .never)
          else if k.derives tag own then return (t, m)
          else return (.never, m)
        | .unknown => return (t, m)
        | .never | .null | .undefined | .boolean | .number | .string | .literal _ => return (.never, m)
        | _ => return (← TypeStore.meet m t, m)) := by
  refine agree_splitBy hab fun v m n hv hwv hmn => ?_
  have hst := hst.grows hwv
  have hnever := hv.atom never_mem
  cases hv.mirroring.mirrors hmn with
  | object own _ =>
    dsimp only
    -- the tags are the same in both, so only the ancestry is asked for
    rw [hderives]
    split
    · exact agree_meet_pair hmn hst
    split
    · exact agree_pair hmn hnever
    split
    · exact agree_pair hst hmn
    · exact agree_pair hnever hmn
  | text _ | numeral _ | truth _ => exact agree_pair hnever hmn
  | tuple _ _ | function _ _ | union _ | inter _ | var _ _ => exact agree_meet_pair hmn hst
  | atom hatom =>
    cases m with
    | unknown => exact agree_pair hst hmn
    | never | null | undefined | boolean | number | string => exact agree_pair hnever hmn
    | _ => simp [atoms] at hatom

theorem agree_splitInstance (tag : String) (hab : w.Alike a b) :
    w.AgreeSplit (splitInstance tag a) (splitInstance tag b) := by
  unfold splitInstance
  refine (agree_hierarchy w).bind fun v h k _ hwv hhk => ?_
  obtain ⟨hclasses, hderives, hproper⟩ := hhk
  replace hab := hab.grows hwv
  have hfind := hclasses tag
  generalize hc : h.find? tag = c, k.find? tag = d at hfind
  cases hfind with
  | none => exact agree_unchanged hab _ _
  | @some c d hcd =>
    have hshape := hcd.shape
    dsimp only
    generalize c.shape = o, d.shape = o' at hshape
    cases hshape with
    | none =>
      -- a class without a shape has the plainest object of its name for one
      have htag : Text.IsWord tag := by
        obtain ⟨hmem, rfl⟩ := (Hierarchy.find?_eq_some_iff hproper.declared).1 hc
        exact hproper.named c hmem
      refine (agree_object htag (by simp) .nil).bind fun u _ _ _ hvu hshape => ?_
      exact agree_instances tag hderives (hab.grows hvu) hshape
    | some hshape => exact agree_instances tag hderives hab hshape

theorem agree_narrowTo (hab : w.Alike a b) (hst : w.Alike s t) :
    w.AgreeTy (narrowTo a s) (narrowTo b t) := by
  refine .of_sound fun v hv hwv => ?_
  replace hab := hab.grows hwv
  replace hst := hst.grows hwv
  unfold narrowTo
  refine (Same.filterM (hv.mirroring.members_rel hab) fun x _ y _ hxy => same_subtype hxy hst).bind ?_
  intro u ms ns _ hvu hms
  refine (agree_union (alike_grows hms hvu)).bind fun u' r r' hu' huu' hr => ?_
  rw [hu'.mirroring.isNever_eq hr]
  split
  · exact agree_meet ((hab.grows hvu).grows huu') ((hst.grows hvu).grows huu')
  · exact agree_self hr

variable {preds preds' : Predicates}

theorem agree_splitPredicate (hpreds : preds.Mirrors w.Alike preds') (fn : String) (position : Int)
    (hab : w.Alike a b) :
    w.AgreeSplit (splitPredicate preds fn position a) (splitPredicate preds' fn position b) := by
  refine .of_sound fun v hv hwv => ?_
  replace hab := hab.grows hwv
  have hfind := (hpreds.imp fun _ _ h => h.grows hwv).find?_rel fn
  unfold splitPredicate
  generalize preds.find? fn = o, preds'.find? fn = o' at hfind
  cases hfind with
  | none => exact agree_unchanged hab _ _
  | some hdecl =>
    have hnarrows := hdecl.narrows
    dsimp only
    rw [hdecl.position]
    split
    · exact agree_unchanged hab _ _
    refine (Same.filterM (hv.mirroring.members_rel hab) fun x _ y _ hxy =>
      (same_subtype hxy hnarrows).bind fun u c _ _ => Same.pure u (!c)).bind ?_
    intro u ms ns _ hvu hms
    refine (agree_union (alike_grows hms hvu)).bind fun u₁ n n' _ h₁ hn => ?_
    refine (agree_narrowTo ((hab.grows hvu).grows h₁) ((hnarrows.grows hvu).grows h₁)).bind ?_
    intro u₂ y y' _ h₂ hy
    exact .pure fun _ _ h₃ => ⟨hy.grows h₃, (hn.grows h₂).grows h₃, rfl⟩

/-! ## Guards -/

variable {env env' : Option (String → Option Ty)}

theorem agree_split {g g' : Guard} (hpreds : preds.Mirrors w.Alike preds')
    (henv : Option.Rel (fun f f' => ∀ x, Option.Rel w.Alike (f x) (f' x)) env env')
    (hg : g.Mirrors w.Alike g') (hab : w.Alike a b) :
    w.AgreeSplit (g.split preds env a) (g'.split preds' env' b) := by
  unfold Guard.split
  cases hg with
  | typeOf _ tag => exact agree_splitTypeof tag hab
  | truthy _ => exact agree_splitTruthy hab
  | equality op left hc =>
    cases hc with
    | type hst => exact agree_splitEquality op left.prop hab hst
    | var name =>
      unfold comparandType
      cases henv with
      | none => exact agree_unchanged hab _ _
      | @some f f' hf =>
        have hx := hf name
        dsimp only
        generalize f name = o, f' name = o' at hx
        cases hx with
        | none => exact agree_unchanged hab _ _
        | some hst => exact agree_splitEquality op left.prop hab hst
  | has prop _ => exact agree_splitHas prop hab
  | instanceOf _ tag => exact agree_splitInstance tag hab
  | discriminant _ prop hst => exact agree_splitDiscriminant prop hab hst
  | predicate fn position _ => exact agree_splitPredicate hpreds fn position hab

theorem agree_withinInput (hab : w.Alike a b) {p q : Split} (hpq : p.Mirrors w.Alike q) :
    w.AgreeSplit (withinInput a p) (withinInput b q) := by
  unfold withinInput
  refine (same_subtype hpq.yes hab).bind fun v c _ hwv => ?_
  have hab := hab.grows hwv
  have hpq : Split.Mirrors v.Alike p q := ⟨hpq.yes.grows hwv, hpq.no.grows hwv, hpq.degraded⟩
  have hrest {u : Twins} (hvu : v.Grows u) {p q : Split} (hpq : p.Mirrors u.Alike q) : u.AgreeSplit
      (do if ← TypeStore.subtype p.no a then pure p else pure { p with no := a, degraded := true })
      (do if ← TypeStore.subtype q.no b then pure q else pure { q with no := b, degraded := true }) := by
    have hab := hab.grows hvu
    refine (same_subtype hpq.no hab).ite ?_ ?_
    · exact .pure fun _ _ h => ⟨hpq.yes.grows h, hpq.no.grows h, hpq.degraded⟩
    · exact .pure fun _ _ h => ⟨hpq.yes.grows h, hab.grows h, rfl⟩
  cases c with
  | true => exact hrest (.refl v) hpq
  | false => exact hrest (.refl v) ⟨hab, hpq.no, rfl⟩

/-- **A guard splits alike types into alike sides.** -/
theorem agree_narrow {g g' : Guard} (hpreds : preds.Mirrors w.Alike preds')
    (henv : Option.Rel (fun f f' => ∀ x, Option.Rel w.Alike (f x) (f' x)) env env')
    (hg : g.Mirrors w.Alike g') (hab : w.Alike a b) :
    w.AgreeSplit (g.narrow preds env a) (g'.narrow preds' env' b) := by
  unfold Guard.narrow
  exact (agree_split hpreds henv hg hab).bind fun _ _ _ _ hwv hpq => agree_withinInput (hab.grows hwv) hpq

theorem mirrors_ofCase (prop : Option Text) (hst : w.Alike s t) :
    (Guard.ofCase prop s).Mirrors w.Alike (Guard.ofCase prop t) := by
  cases prop with
  | none => exact .equality _ _ (.type hst)
  | some prop => exact .discriminant _ _ hst

/-- **The cases of a switch take alike subjects apart alike.** -/
theorem agree_splitCases (hpreds : preds.Mirrors w.Alike preds') (prop : Option Text) {vs us : List Ty}
    (hvs : List.Forall₂ w.Alike vs us) (hab : w.Alike a b) :
    w.Agree (Guard.splitCases preds prop a vs) (Guard.splitCases preds' prop b us) fun v =>
      CaseSplit.Mirrors v.Alike := by
  induction vs generalizing w us a b with
  | nil =>
    cases hvs
    rw [Guard.splitCases, Guard.splitCases]
    exact .pure fun _ _ hwv => ⟨.nil, hab.grows hwv, rfl⟩
  | cons s vs ih =>
    obtain ⟨t, us, hst, hrest, rfl⟩ := List.forall₂_cons_left_iff.1 hvs
    rw [Guard.splitCases, Guard.splitCases]
    refine (agree_narrow hpreds .none (mirrors_ofCase prop hst) hab).bind fun v p q _ hwv hpq => ?_
    refine (ih (hpreds.imp fun _ _ h => h.grows hwv) (alike_grows hrest hwv) hpq.no).bind ?_
    intro u c d _ hvu hcd
    refine .pure fun _ _ h => ?_
    have hcd := hcd.imp fun _ _ hxy => Alike.grows hxy h
    exact ⟨.cons ((hpq.yes.grows hvu).grows h) hcd.cases, hcd.residual, by rw [hpq.degraded, hcd.degraded]⟩

end Twins
end FlowTyping
