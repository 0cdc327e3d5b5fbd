import FlowTyping.Proofs.Guard.Coverage
import FlowTyping.Proofs.Guard.Kept
import FlowTyping.Proofs.Relation.Contravariant

/-!
# The sides of a guard in a universe

A guard that is asked in a universe splits the type of its variable like it does without one: the universe
answers the trees that stand for the sides. So what holds of the rules of narrowing holds of what programs get,
as long as the universe keeps one type for a key.

* **`Universe.yields_split`** — each rule, and **`Universe.yields_narrow`** — the sides of a guard.
* **`Universe.History.guard_covers`** — both sides stay within the type and together cover it, and a branch
  that is reached has a live way on.
* **`Session.collision_not_covered`** — with property names that are no words, the union of the sides may be
  another type.
-/

namespace FlowTyping

open Ty

namespace Universe

open Guard

variable {h : Hierarchy} {u : Universe} {a b s t value value' : Ty} {prop : Text}

theorem stands_grow {v : Universe} {ts us : List Ty} (hts : List.Forall₂ u.Stands ts us)
    (huv : u.Grows h v) : List.Forall₂ v.Stands ts us :=
  hts.imp fun _ _ hst => hst.grows huv

/-- Both sides stand for those of a split without a universe. -/
abbrev YieldsSplit (h : Hierarchy) (u : Universe) (x : InUniverse Split) (s : Split) : Prop :=
  u.Yields h x fun v r => r.Mirrors v.Stands s

/-- What is kept of a member when single values are left out. -/
theorem yields_kept {ms ns : List Ty} (hmn : List.Forall₂ u.Stands ms ns) (ha : u.Stands a s) :
    u.Yields h
      (if ms.any (·.same a) then pure [] else
        match a with
        | .boolean => do
          let yes ← TypeStore.literal (.bool true)
          let no ← TypeStore.literal (.bool false)
          return [yes, no].filter fun x => !ms.any (·.same x)
        | _ => pure [a])
      fun v xs => List.Forall₂ v.Stands xs (keptOf ns s) := by
  refine .of_sound fun v hv huv => ?_
  replace hmn := stands_grow hmn huv
  replace ha := ha.grows huv
  rw [hv.mirroring.any_same_eq hmn ha]
  by_cases hs : s = .boolean
  · subst hs
    obtain rfl : a = .boolean :=
      eq_of_key_eq_atom (by simp [atoms]) (hv.key_eq ha.lookup?)
    rw [keptOf]
    split
    · exact .pure fun _ _ _ => .nil
    refine (yields_literal _).bind fun u₁ yes _ h₁ hyes => ?_
    refine (yields_literal _).bind fun u₂ no _ h₂ hno => .pure fun u₃ hu₃ h₃ => ?_
    have hmn := stands_grow hmn ((h₁.trans h₂).trans h₃)
    have hboth : List.Forall₂ u₃.Stands [yes, no] [.literal (.bool true), .literal (.bool false)] :=
      .cons ((hyes.grows h₂).grows h₃) (.cons (hno.grows h₃) .nil)
    refine forall₂_filter (fun x y hxy => ?_) hboth
    rw [hu₃.mirroring.any_same_eq hmn hxy]
  · rw [keptOf_of_ne ns hs]
    split
    · exact .pure fun _ _ _ => .nil
    have ha' : a ≠ .boolean := fun heq => by
      subst heq
      exact hs ((hv.mirroring.mirrors ha).eq_of_atom (by simp [atoms]))
    split
    · exact absurd rfl ha'
    · exact .pure fun _ _ hvw => .cons (ha.grows hvw) .nil

theorem yields_without (ha : u.Stands a s) (hb : u.Stands b t) :
    u.Yields h (without a b) fun v r => v.Stands r (without s t : Ideal h Ty).run := by
  refine .of_sound fun v hv huv => ?_
  replace ha := ha.grows huv
  replace hb := hb.grows huv
  have hunits := hv.mirroring.members_rel hb
  rw [run_without]
  unfold without
  dsimp only
  rw [hv.mirroring.all_isUnit_eq hunits]
  split
  · refine (Yields.mapM (P := fun w y xs => List.Forall₂ w.Stands xs (keptOf t.members y))
      (fun hvw hxs => stands_grow hxs hvw) (hv.mirroring.members_rel ha) fun x _ y _ hxy =>
        yields_kept hunits hxy).bind fun w xs _ _ hxs => ?_
    have hflat : List.Forall₂ w.Stands xs.flatten (s.members.flatMap (keptOf t.members)) := by
      rw [List.flatMap]
      refine List.rel_flatten ?_
      rw [List.forall₂_map_right_iff]
      exact hxs.flip
    exact yields_union hflat
  · exact yields_self ha

/-- A test comes after the property of a member is known. -/
theorem yields_held_bind {α : Type} {p q : Property Ty} (hpq : p.Mirrors u.Stands q) {f : Ty → InUniverse α}
    {Q : Universe → α → Prop}
    (hf : ∀ (v : Universe) (field : Ty), v.Sound h → u.Grows h v → v.Stands field (held h q) →
      v.Yields h (f field) Q) :
    u.Yields h
      (if p.optional then TypeStore.union [p.type, .undefined] >>= f else pure p.type >>= f) Q := by
  refine .of_sound fun v hv huv => ?_
  have htype := hpq.type.grows huv
  rw [hpq.optional]
  rw [held] at hf
  split
  · rename_i ho
    rw [if_pos ho] at hf
    refine (yields_union (.cons htype (.cons (stands_atom hv (by simp [atoms])) .nil))).bind ?_
    exact fun w field hw hvw hfield => hf w field hw (huv.trans hvw) hfield
  · rename_i ho
    rw [if_neg ho] at hf
    exact (yields_self htype).bind fun w field hw hvw hfield => hf w field hw (huv.trans hvw) hfield

theorem yields_unchanged (ha : u.Stands a s) (reason : Degradation) (reason' : Degradation) :
    u.YieldsSplit h (pure (.unchanged a reason)) (.unchanged s reason') :=
  .pure fun _ _ huv => ⟨ha.grows huv, ha.grows huv, rfl⟩

theorem yields_splitDiscriminant_go (ha : u.Stands a s) (hvalue : u.Stands value value') {ts us : List Ty}
    (hts : List.Forall₂ u.Stands ts us) {yes no yes' no' : List Ty} (hyes : List.Forall₂ u.Stands yes yes')
    (hno : List.Forall₂ u.Stands no no') :
    u.YieldsSplit h (splitDiscriminant.go a prop value yes no ts)
      (splitDiscriminant.go s prop value' yes' no' us : Ideal h Split).run := by
  induction ts generalizing u us yes no yes' no' with
  | nil =>
    cases hts
    rw [splitDiscriminant.go]
    refine (yields_union hyes).bind fun v y _ huv hy => ?_
    refine (yields_union (stands_grow hno huv)).bind fun w n _ hvw hn => ?_
    exact .pure fun _ _ hw => ⟨(hy.grows hvw).grows hw, hn.grows hw, rfl⟩
  | cons m ms ih =>
    obtain ⟨n, ns, hmn, hms, rfl⟩ := List.forall₂_cons_left_iff.1 hts
    rw [splitDiscriminant.go]
    refine (yields_propertyOf hmn prop).bind fun u₁ o _ h₁ ho => ?_
    cases hp : h.propertyOf n prop with
    | none =>
      rw [hp] at ho
      cases ho
      rw [splitDiscriminant.go, Ideal.run_bind, Ideal.run_propertyOf, hp]
      exact yields_unchanged (ha.grows h₁) _ _
    | some q =>
      rw [hp] at ho
      obtain ⟨p, rfl, hpq⟩ : ∃ p, o = some p ∧ p.Mirrors u₁.Stands q := by
        cases ho with
        | some hpq => exact ⟨_, rfl, hpq⟩
      rw [splitDiscriminant_go_cons s value' hp]
      refine yields_held_bind hpq fun u₂ field hu₂ h₂ hfield => ?_
      replace ha := (ha.grows h₁).grows h₂
      dsimp only
      -- the property must hold nothing but unit types for the member to be told by it
      rw [hu₂.mirroring.allUnits_eq hfield]
      cases hunits : (held h q).allUnits with
      | false => exact yields_unchanged ha _ _
      | true =>
        replace hvalue := (hvalue.grows h₁).grows h₂
        refine (yields_meet hfield hvalue).bind fun u₃ met hu₃ h₃ hmet => ?_
        refine (yields_without (hfield.grows h₃) (hvalue.grows h₃)).bind fun u₄ left hu₄ h₄ hleft => ?_
        have hall : u.Grows h u₄ := ((h₁.trans h₂).trans h₃).trans h₄
        -- the member goes to each side unless nothing is left of it there
        have hadd (c : Bool) {xs ys : List Ty} (hxs : List.Forall₂ u.Stands xs ys) :
            List.Forall₂ u₄.Stands (if c then xs else xs ++ [m]) (if c then ys else ys ++ [n]) := by
          cases c with
          | true => exact stands_grow hxs hall
          | false => exact List.rel_append (stands_grow hxs hall) (.cons (hmn.grows hall) .nil)
        rw [hu₃.mirroring.isNever_eq hmet, hu₄.mirroring.isNever_eq hleft]
        exact ih ((ha.grows h₃).grows h₄) ((hvalue.grows h₃).grows h₄) (stands_grow hms hall) (hadd _ hyes)
          (hadd _ hno)

theorem yields_splitDiscriminant (ha : u.Stands a s) (hvalue : u.Stands value value') (prop : Text) :
    u.YieldsSplit h (splitDiscriminant a prop value) (splitDiscriminant s prop value' : Ideal h Split).run := by
  refine .of_sound fun v hv huv => ?_
  replace ha := ha.grows huv
  replace hvalue := hvalue.grows huv
  unfold splitDiscriminant
  rw [hv.mirroring.allUnits_eq hvalue, Ideal.run_ite]
  split
  · exact yields_unchanged ha _ _
  · exact yields_splitDiscriminant_go ha hvalue (hv.mirroring.members_rel ha) .nil .nil

theorem yields_withinInput (ha : u.Stands a s) {p q : Split} (hpq : p.Mirrors u.Stands q) :
    u.YieldsSplit h (withinInput a p) (withinInput s q : Ideal h Split).run := by
  have hgrow {v w : Universe} (hvw : v.Grows h w) {p q : Split} (hpq : p.Mirrors v.Stands q) :
      p.Mirrors w.Stands q := ⟨hpq.yes.grows hvw, hpq.no.grows hvw, hpq.degraded⟩
  have hrest {p q : Split} (hpq : p.Mirrors u.Stands q) : u.YieldsSplit h
      (do if ← TypeStore.subtype p.no a then pure p else pure { p with no := a, degraded := true })
      (if h.subtype q.no s then q else { q with no := s, degraded := true }) := by
    refine (says_subtype hpq.no ha).bind ?_
    split
    · exact .pure fun _ _ huv => hgrow huv hpq
    · exact .pure fun _ _ huv => ⟨hpq.yes.grows huv, ha.grows huv, rfl⟩
  -- the side that is tested first gives way before the other one is looked at
  cases hyes : h.subtype q.yes s with
  | true =>
    have hrun : (withinInput s q : Ideal h Split).run =
        if h.subtype q.no s then q else { q with no := s, degraded := true } := by
      cases hno : h.subtype q.no s <;> simp [withinInput, hyes, hno]
    rw [hrun]
    refine (says_subtype hpq.yes ha).bind ?_
    rw [hyes]
    exact hrest hpq
  | false =>
    have hrun : (withinInput s q : Ideal h Split).run =
        if h.subtype q.no s then { q with yes := s, degraded := true }
        else { q with yes := s, no := s, degraded := true } := by
      cases hno : h.subtype q.no s <;> simp [withinInput, hyes, hno]
    rw [hrun]
    refine (says_subtype hpq.yes ha).bind ?_
    rw [hyes]
    exact hrest (p := { p with yes := a, degraded := true })
      (q := { q with yes := s, degraded := true }) ⟨ha, hpq.no, rfl⟩

/-! ## Rules that split member by member -/

/-- Both types stand for those of a pair. -/
abbrev StandsPair (u : Universe) (p q : Ty × Ty) : Prop := u.Stands p.1 q.1 ∧ u.Stands p.2 q.2

theorem yields_pair (ha : u.Stands a s) (hb : u.Stands b t) :
    u.Yields h (pure (a, b)) fun v p => v.StandsPair p (s, t) :=
  .pure fun _ _ huv => ⟨ha.grows huv, hb.grows huv⟩

theorem yields_meet_pair (ha : u.Stands a s) (hb : u.Stands b t) :
    u.Yields h (do return (← TypeStore.meet a b, a)) fun v p => v.StandsPair p (h.meet s t, s) :=
  (yields_meet ha hb).bind fun _ _ _ huv hr => yields_pair hr (ha.grows huv)

theorem stands_never {v : Universe} (hv : v.Sound h) : v.Stands .never .never := stands_atom hv (by simp [atoms])

/-- A type is split alternative by alternative, so it is enough to look at one. -/
theorem yields_splitBy {f : Ty → InUniverse (Ty × Ty)} {f' : Ty → Ideal h (Ty × Ty)} (ha : u.Stands a s)
    (hf : ∀ (v : Universe) (x y : Ty), v.Sound h → u.Grows h v → v.Stands x y →
      v.Yields h (f x) fun w p => w.StandsPair p (f' y).run) :
    u.YieldsSplit h (splitBy a f) (splitBy s f').run := by
  refine .of_sound fun v hv huv => ?_
  rw [run_splitBy]
  unfold splitBy
  refine (Yields.mapM (P := fun w y p => w.StandsPair p (f' y).run)
    (fun hvw hp => ⟨hp.1.grows hvw, hp.2.grows hvw⟩) (hv.mirroring.members_rel (ha.grows huv))
      fun x _ y _ hxy => hf v x y hv huv hxy).bind fun w ps _ _ hps => ?_
  have hyes : List.Forall₂ w.Stands (ps.map (·.1)) (s.members.map fun y => (f' y).run.1) := by
    rw [List.forall₂_map_left_iff, List.forall₂_map_right_iff]
    exact hps.flip.imp fun _ _ hp => hp.1
  have hno : List.Forall₂ w.Stands (ps.map (·.2)) (s.members.map fun y => (f' y).run.2) := by
    rw [List.forall₂_map_left_iff, List.forall₂_map_right_iff]
    exact hps.flip.imp fun _ _ hp => hp.2
  refine (yields_union hyes).bind fun w₁ yes _ h₁ hy => ?_
  refine (yields_union (stands_grow hno h₁)).bind fun w₂ no _ h₂ hn => ?_
  exact .pure fun _ _ h₃ => ⟨(hy.grows h₂).grows h₃, hn.grows h₃, rfl⟩

theorem yields_typeofType (h : Hierarchy) (u : Universe) (tag : String) :
    u.Yields h (typeofType tag) fun v o => Option.Rel v.Stands o (typeofType tag : Ideal h (Option Ty)).run := by
  have hatom {t : Ty} (ht : t ∈ atoms) : u.Yields h (pure (some t)) fun v o => Option.Rel v.Stands o (some t) :=
    .pure fun _ hv _ => .some (stands_atom hv ht)
  unfold typeofType
  split
  case h_5 =>
    rw [Ideal.run_bind, Ideal.run_bind, Ideal.run_object, Ideal.run_union]
    refine (yields_object (by decide) (by simp) .nil).bind fun v r hv _ hr => ?_
    refine (yields_union (.cons (stands_atom hv (by simp [atoms])) (.cons hr .nil))).bind ?_
    exact fun _ _ _ _ hs => .pure fun _ _ hvw => .some (hs.grows hvw)
  case h_6 => exact .pure fun _ _ _ => .none
  all_goals exact hatom (by simp [atoms])

theorem yields_splitTypeof (tag : Text) (ha : u.Stands a s) :
    u.YieldsSplit h (splitTypeof tag a) (splitTypeof tag s : Ideal h Split).run := by
  unfold splitTypeof
  cases typeofTags.find? (fun known => Text.ofString known = tag) with
  | none => exact yields_unchanged ha _ _
  | some tag =>
    refine yields_splitBy ha fun v x y hv _ hxy => ?_
    have hnever := stands_never hv
    dsimp only
    rw [hv.mirroring.typeofTag_eq hxy]
    split
    · exact yields_pair hxy hnever
    split
    · rw [Ideal.run_bind]
      refine (yields_typeofType h v tag).bind fun w o _ hvw ho => ?_
      generalize (typeofType tag : Ideal h (Option Ty)).run = o' at ho
      replace hxy := hxy.grows hvw
      cases ho with
      | none => exact yields_pair hxy hxy
      | some hall => exact yields_meet_pair hxy hall
    · exact yields_pair hnever hxy

theorem yields_splitTruthy (ha : u.Stands a s) :
    u.YieldsSplit h (splitTruthy a) (splitTruthy s : Ideal h Split).run := by
  refine yields_splitBy ha fun v x y hv _ hxy => ?_
  have hside (c : Bool) : v.Stands (if c then x else .never) (if c then y else .never) := by
    cases c with
    | true => exact hxy
    | false => exact stands_never hv
  dsimp only
  rw [hv.mirroring.truthiness_eq hxy]
  exact yields_pair (hside _) (hside _)

/-- A member that is asked for a property: `missing` is what passes the test where there is none. -/
theorem yields_lookup {missing missing' : Ty} (hm : u.Stands missing missing') (ha : u.Stands a s) (prop : Text) :
    u.Yields h
      (do
        match ← TypeStore.propertyOf a prop with
        | none => return (missing, a)
        | some p => return (a, if p.optional then a else .never))
      fun v p => v.StandsPair p (do
        match ← TypeStore.propertyOf s prop with
        | none => return (missing', s)
        | some p => return (s, if p.optional then s else .never) : Ideal h (Ty × Ty)).run := by
  rw [Ideal.run_bind, Ideal.run_propertyOf]
  refine (yields_propertyOf ha prop).bind fun v o hv huv ho => ?_
  generalize h.propertyOf s prop = o' at ho
  replace ha := ha.grows huv
  cases ho with
  | none => exact yields_pair (hm.grows huv) ha
  | some hp =>
    dsimp only
    rw [hp.optional]
    split
    · exact yields_pair ha ha
    · exact yields_pair ha (stands_never hv)

theorem yields_splitHas (prop : Text) (ha : u.Stands a s) :
    u.YieldsSplit h (splitHas prop a) (splitHas prop s : Ideal h Split).run := by
  refine yields_splitBy ha fun v x y hv _ hxy => ?_
  have hnever := stands_never hv
  cases hv.mirroring.mirrors hxy with
  | object _ _ | tuple _ _ | function _ _ | inter _ => exact yields_lookup hnever hxy prop
  | var _ _ => exact yields_lookup hxy hxy prop
  | text _ | numeral _ | truth _ | union _ => exact yields_pair hnever hxy
  | atom hatom =>
    cases x with
    | unknown => exact yields_pair hxy hxy
    | never | null | undefined | boolean | number | string => exact yields_pair hnever hxy
    | _ => simp [atoms] at hatom

/-! ## Classes -/

theorem yields_instanceSides (tag : String) {shape shape' : Ty} (hu : u.Sound h) (hshape : u.Stands shape shape')
    (ha : u.Stands a s) :
    u.Yields h (instanceSides h tag shape a) fun v p =>
      v.StandsPair p (instanceSides h tag shape' s : Ideal h (Ty × Ty)).run := by
  have hnever := stands_never hu
  cases hu.mirroring.mirrors ha with
  | object own _ =>
    rw [instanceSides, instanceSides]
    split
    · exact yields_meet_pair ha hshape
    split
    · exact yields_pair ha hnever
    split
    · exact yields_pair hshape ha
    · exact yields_pair hnever ha
  | text _ | numeral _ | truth _ => exact yields_pair hnever ha
  | tuple _ _ | function _ _ | union _ | inter _ | var _ _ => exact yields_meet_pair ha hshape
  | atom hatom =>
    cases a with
    | unknown => exact yields_pair hshape ha
    | never | null | undefined | boolean | number | string => exact yields_pair hnever ha
    | _ => simp [atoms] at hatom

theorem yields_splitInstance (hproper : h.Proper) (tag : String) (ha : u.Stands a s) :
    u.YieldsSplit h (splitInstance tag a) (splitInstance tag s : Ideal h Split).run := by
  refine .of_sound fun v hv huv => ?_
  replace ha := ha.grows huv
  rw [splitInstance_eq, splitInstance_eq, Ideal.run_bind, Ideal.run_hierarchy]
  refine (says_hierarchy h v).bind ?_
  cases hc : h.find? tag with
  | none => exact yields_unchanged ha _ _
  | some c =>
    obtain ⟨hmem, rfl⟩ := (Hierarchy.find?_eq_some_iff hproper.declared).1 hc
    have hrest {w : Universe} {shape shape' : Ty} (hvw : v.Grows h w) (hshape : w.Stands shape shape') :
        w.YieldsSplit h (splitBy a (instanceSides h c.name shape))
          (splitBy s (instanceSides h c.name shape') : Ideal h Split).run :=
      yields_splitBy (ha.grows hvw) fun _ _ _ hx hwx hxy => yields_instanceSides c.name hx (hshape.grows hwx) hxy
    cases ho : c.shape with
    | some shape =>
      simp only [ho, pure_bind]
      exact hrest (.refl h v) (hv.stands (hv.shape c hmem shape ho))
    | none =>
      simp only [ho]
      -- a class without a shape has the plainest object of its name for one
      exact (yields_object (hproper.named c hmem) (by simp) .nil).bind fun _ _ _ hvw hshape => hrest hvw hshape

/-! ## Comparisons -/

/-- What follows in a comparison once its right side is known. -/
theorem yields_comparison (op : EqOp) (prop : Option Text) (ha : u.Stands a s) (hvalue : u.Stands value value') :
    u.YieldsSplit h
      (do
        let split ← match prop with
          | some prop => splitDiscriminant a prop value
          | none => do
            let yes ← TypeStore.meet a value
            let no ← without a value
            pure { yes, no }
        return if op.negated then split.swap else split)
      (if op.negated then (comparisonSides h prop value' s).swap else comparisonSides h prop value' s) := by
  have hturn {v : Universe} {p q : Split} (hpq : p.Mirrors v.Stands q) :
      v.YieldsSplit h (pure (if op.negated then p.swap else p)) (if op.negated then q.swap else q) := by
    refine .pure fun w _ hvw => ?_
    have hpq : p.Mirrors w.Stands q := ⟨hpq.yes.grows hvw, hpq.no.grows hvw, hpq.degraded⟩
    split
    · exact hpq.swap
    · exact hpq
  cases prop with
  | some prop => exact (yields_splitDiscriminant ha hvalue prop).bind fun _ _ _ _ hpq => hturn hpq
  | none =>
    rw [comparisonSides]
    have hsides : u.YieldsSplit h
        (do
          let yes ← TypeStore.meet a value
          let no ← without a value
          pure { yes, no })
        { yes := h.meet s value', no := (without s value' : Ideal h Ty).run } := by
      refine (yields_meet ha hvalue).bind fun v yes _ huv hyes => ?_
      refine (yields_without (ha.grows huv) (hvalue.grows huv)).bind fun w no _ hvw hno => ?_
      exact .pure fun _ _ hw => ⟨(hyes.grows hvw).grows hw, hno.grows hw, rfl⟩
    exact hsides.bind fun _ _ _ _ hpq => hturn hpq

theorem yields_splitEquality (op : EqOp) (prop : Option Text) (ha : u.Stands a s)
    (hvalue : u.Stands value value') :
    u.YieldsSplit h (splitEquality op prop value a) (splitEquality op prop value' s : Ideal h Split).run := by
  refine .of_sound fun v hv huv => ?_
  replace ha := ha.grows huv
  replace hvalue := hvalue.grows huv
  rw [run_splitEquality, looseRight]
  unfold splitEquality
  dsimp only
  rw [hv.mirroring.isNullish_eq hvalue]
  cases op.loose && isNullish value' with
  | true =>
    have hnull : v.Stands .null .null := stands_atom hv (by simp [atoms])
    have hundefined : v.Stands .undefined .undefined := stands_atom hv (by simp [atoms])
    exact (yields_union (.cons hnull (.cons hundefined .nil))).bind fun _ _ _ hvw hr =>
      yields_comparison op prop (ha.grows hvw) hr
  | false => exact (yields_self hvalue).bind fun _ _ _ hvw hr => yields_comparison op prop (ha.grows hvw) hr

/-! ## Predicates -/

/-- A loop that drops elements keeps what stands for the others. -/
theorem yields_filterM {α β : Type} {R : α → β → Prop} {p : α → InUniverse Bool} {q : β → Bool} {xs : List α}
    {ys : List β} (hxs : List.Forall₂ R xs ys) (hp : ∀ x ∈ xs, ∀ y ∈ ys, R x y → u.Says h (p x) (q y)) :
    u.Yields h (xs.filterM p) fun _ zs => List.Forall₂ R zs (ys.filter q) := by
  have hloop (acc : List α) (acc' : List β) (hacc : List.Forall₂ R acc acc') :
      u.Yields h (xs.filterAuxM p acc) fun _ zs => List.Forall₂ R zs ((ys.filter q).reverse ++ acc') := by
    induction hxs generalizing acc acc' with
    | nil => exact .pure fun _ _ _ => hacc
    | @cons x y xs ys hxy _ ih =>
      rw [List.filterAuxM]
      have hfirst := hp x (by simp) y (by simp) hxy
      have hrest := ih fun x hx y hy => hp x (by simp [hx]) y (by simp [hy])
      refine hfirst.bind ?_
      cases hq : q y with
      | true => simpa [hq] using hrest (x :: acc) (y :: acc') (.cons hxy hacc)
      | false => simpa [hq] using hrest acc acc' hacc
  rw [List.filterM]
  refine (hloop [] [] .nil).bind fun v zs _ _ hzs => .pure fun _ _ _ => ?_
  simpa using List.rel_reverse hzs

theorem yields_narrowTo (ha : u.Stands a s) (hb : u.Stands b t) :
    u.Yields h (narrowTo a b) fun v r => v.Stands r (narrowTo s t : Ideal h Ty).run := by
  refine .of_sound fun v hv huv => ?_
  replace ha := ha.grows huv
  replace hb := hb.grows huv
  rw [run_narrowTo]
  unfold narrowTo
  refine (yields_filterM (hv.mirroring.members_rel ha) fun x _ y _ hxy => says_subtype hxy hb).bind ?_
  intro w ms _ hvw hms
  refine (yields_union (stands_grow hms hvw)).bind fun w' r hw' hww' hr => ?_
  rw [hw'.mirroring.isNever_eq hr]
  split
  · exact yields_meet ((ha.grows hvw).grows hww') ((hb.grows hvw).grows hww')
  · exact yields_self hr

variable {preds preds' : Predicates}

theorem yields_splitPredicate (hpreds : preds.Mirrors u.Stands preds') (fn : String) (position : Int)
    (ha : u.Stands a s) :
    u.YieldsSplit h (splitPredicate preds fn position a)
      (splitPredicate preds' fn position s : Ideal h Split).run := by
  refine .of_sound fun v hv huv => ?_
  replace ha := ha.grows huv
  have hfind := (hpreds.imp fun _ _ hst => Stands.grows hst huv).find?_rel fn
  unfold splitPredicate
  generalize preds.find? fn = o, preds'.find? fn = o' at hfind
  cases hfind with
  | none => exact yields_unchanged ha _ _
  | @some decl decl' hdecl =>
    have hnarrows := hdecl.narrows
    dsimp only
    rw [hdecl.position, Ideal.run_ite]
    split
    · exact yields_unchanged ha _ _
    simp only [Ideal.run_bind, Ideal.run_filterM, Ideal.run_union, Ideal.run_pure, Ideal.run_subtype]
    have hnot (x y : Ty) (hxy : v.Stands x y) : v.Says h (do return !(← TypeStore.subtype x decl.narrows))
        (!h.subtype y decl'.narrows) :=
      (says_subtype hxy hnarrows).bind (Says.pure h v _)
    refine (yields_filterM (hv.mirroring.members_rel ha) fun x _ y _ => hnot x y).bind fun w ms _ hvw hms => ?_
    refine (yields_union (stands_grow hms hvw)).bind fun w₁ no _ h₁ hno => ?_
    refine (yields_narrowTo ((ha.grows hvw).grows h₁) ((hnarrows.grows hvw).grows h₁)).bind fun w₂ yes _ h₂ hyes => ?_
    exact .pure fun _ _ h₃ => ⟨hyes.grows h₃, (hno.grows h₂).grows h₃, rfl⟩

/-! ## All guards -/

variable {env env' : Option (String → Option Ty)} {g g' : Guard}

theorem yields_split (hproper : h.Proper) (hpreds : preds.Mirrors u.Stands preds')
    (henv : Option.Rel (fun f f' => ∀ x, Option.Rel u.Stands (f x) (f' x)) env env')
    (hg : g.Mirrors u.Stands g') (ha : u.Stands a s) :
    u.YieldsSplit h (g.split preds env a) (g'.split preds' env' s : Ideal h Split).run := by
  unfold Guard.split
  cases hg with
  | typeOf _ tag => exact yields_splitTypeof tag ha
  | truthy _ => exact yields_splitTruthy ha
  | equality op left hc =>
    cases hc with
    | type hvalue => exact yields_splitEquality op left.prop ha hvalue
    | var name =>
      unfold comparandType
      cases henv with
      | none => exact yields_unchanged ha _ _
      | @some f f' hf =>
        have hx := hf name
        dsimp only
        generalize f name = o, f' name = o' at hx
        cases hx with
        | none => exact yields_unchanged ha _ _
        | some hvalue => exact yields_splitEquality op left.prop ha hvalue
  | has prop _ => exact yields_splitHas prop ha
  | instanceOf _ tag => exact yields_splitInstance hproper tag ha
  | discriminant _ prop hvalue => exact yields_splitDiscriminant ha hvalue prop
  | predicate fn position _ => exact yields_splitPredicate hpreds fn position ha

/-- **A guard splits a type like the type that it stands for.** -/
theorem yields_narrow (hproper : h.Proper) (hpreds : preds.Mirrors u.Stands preds')
    (henv : Option.Rel (fun f f' => ∀ x, Option.Rel u.Stands (f x) (f' x)) env env')
    (hg : g.Mirrors u.Stands g') (ha : u.Stands a s) :
    u.YieldsSplit h (g.narrow preds env a) (g'.narrow preds' env' s : Ideal h Split).run := by
  unfold narrow
  rw [Ideal.run_bind]
  exact (yields_split hproper hpreds henv hg ha).bind fun _ _ _ huv hpq => yields_withinInput (ha.grows huv) hpq

/-- What a variable has where it may be unbound and undeclared is an entry. -/
theorem Sound.keeps_current (hu : u.Sound h) {declared env : Env}
    (htypes : ∀ t ∈ declared.types ++ env.types, u.Keeps t) (x : String) :
    u.Keeps ((env.find? x).getD (Graph.unbound declared x)) := by
  rw [Graph.unbound]
  cases henv : env.find? x with
  | some t => exact htypes t (List.mem_append_right _ (Env.mem_types_of_find? henv))
  | none =>
    cases hdeclared : declared.find? x with
    | some t => exact htypes t (List.mem_append_left _ (Env.mem_types_of_find? hdeclared))
    | none => exact hu.atom (by simp [atoms])

/-- The sides that a universe answers for entries, next to those of the rules. -/
theorem Sound.run_narrow (hu : u.Sound h) (hproper : h.Proper) (hg : ∀ t ∈ g.types, u.Keeps t)
    (hpreds : ∀ t ∈ preds.types, u.Keeps t) (henv : ∀ f ∈ env, ∀ x, ∀ t ∈ f x, u.Keeps t) (ha : u.Keeps a) :
    ∃ (made : Split) (v : Universe), (g.narrow preds env a : InUniverse Split).run u = (made, v) ∧
      v.Sound h ∧ u.Grows h v ∧ made.Mirrors v.Stands (g.narrow preds env a : Ideal h Split).run := by
  have hself (t : Ty) (ht : u.Keeps t) : u.Stands t t := hu.stands ht
  have hpreds : preds.Mirrors u.Stands preds :=
    List.forall₂_same.2 fun p hp => ⟨rfl, rfl, hself _ (hpreds _ (List.mem_map.2 ⟨p, hp, rfl⟩))⟩
  have henv : Option.Rel (fun f f' => ∀ x, Option.Rel u.Stands (f x) (f' x)) env env :=
    optionRel_self fun f hf x => optionRel_self fun t ht => hself t (henv f hf x t ht)
  exact ⟨_, _, rfl, yields_narrow hproper hpreds henv (g.mirrors_self fun t ht => hself t (hg t ht))
    (hself a ha) u hu (.refl h u)⟩

/-- A branch whose sides are atoms narrows its variable to them. -/
theorem yields_branch (s : Surroundings) (returns : Option Ty) {declared env : Env} {current : Ty} {made : Split}
    (hcurrent : (env.find? g.target).getD (Graph.unbound declared g.target) = current)
    (hnarrow : u.YieldsSplit h (g.narrow s.preds (some env.find?) current) made)
    (hyes : made.yes ∈ atoms) (hno : made.no ∈ atoms) :
    u.Yields h (Graph.transfer s returns declared (.branch (some g)) env) fun _ o =>
      o.outs = [Graph.narrowed env g.target made.yes, Graph.narrowed env g.target made.no] ∧
        o.declared = declared := by
  rw [Graph.transfer, hcurrent]
  refine hnarrow.bind fun v r hv _ hr => .pure fun _ _ _ => ⟨?_, rfl⟩
  rw [eq_of_key_eq_atom hyes (hv.key_eq hr.yes.lookup?), eq_of_key_eq_atom hno (hv.key_eq hr.no.lookup?)]

/-- **Both sides of a guard stay within the type and together cover it**, in every universe that comes of a new
one by calls with words for names, by declarations of classes that leave what is remembered right, and by passes
over bodies. So a branch that is reached with some value left for its variable has a live way on. A condition on
the bare variable covers types without type parameters. -/
theorem History.guard_covers (hu : u.History) (g : Guard) (hg : ∀ t ∈ g.types, u.Keeps t) :
    (∀ (preds : Predicates) (env : Option (String → Option Ty)) (current : Ty),
      (∀ t ∈ preds.types, u.Keeps t) → (∀ f ∈ env, ∀ x, ∀ t ∈ f x, u.Keeps t) → u.Keeps current →
      ∃ (made : Split) (v : Universe), (g.narrow preds env current : InUniverse Split).run u = (made, v) ∧
        v.Below made.yes current ∧ v.Below made.no current ∧
        ((∀ x, g = .truthy x → Signature.isClosed current = true) →
          ((do TypeStore.subtype current (← TypeStore.union [made.yes, made.no]) : InUniverse Bool).run v).1 =
            true)) ∧
    ∀ (s : Surroundings) (returns : Option Ty) (declared env : Env) (current : Ty),
      (∀ t ∈ s.preds.types, u.Keeps t) → (∀ t ∈ declared.types ++ env.types, u.Keeps t) →
      current = (env.find? g.target).getD (Graph.unbound declared g.target) →
      (∀ x, g = .truthy x → Signature.isClosed current = true) → current ≠ .never →
      ∃ live, some live ∈
        ((Graph.transfer s returns declared (.branch (some g)) env : InUniverse Outcome).run u).1.outs := by
  obtain ⟨hsound, hproper⟩ := hu.sound
  refine ⟨fun preds env current hpreds henv hcurrent => ?_, ?_⟩
  · obtain ⟨made, v, hrun, hv, huv, hmade⟩ := hsound.run_narrow hproper hg hpreds henv hcurrent
    obtain ⟨hyes, hno, hcovers⟩ :=
      narrow_within_and_covers (h := u.classes) (hsound.canonical hcurrent) preds env g
    have hcurrent := hv.stands (huv.keeps hcurrent)
    have hbelow {t t' : Ty} (ht : v.Stands t t') (hs : u.classes.subtype t' current = true) : v.Below t current :=
      ((says_subtype ht hcurrent) v hv (.refl _ v)).2.2.trans hs
    refine ⟨made, v, hrun, hbelow hmade.yes hyes, hbelow hmade.no hno, fun hclosed => ?_⟩
    have hunion : v.Says u.classes (do TypeStore.subtype current (← TypeStore.union [made.yes, made.no]))
        (u.classes.subtype current _) :=
      (yields_union (.cons hmade.yes (.cons hmade.no .nil))).bind fun w _ _ hvw hr =>
        says_subtype (hcurrent.grows hvw) hr
    exact (hunion v hv (.refl _ v)).2.2.trans (hcovers hclosed)
  · intro s returns declared env current hpreds htypes hcur hclosed hne
    have hcurrent : u.Keeps current := hcur ▸ hsound.keeps_current htypes g.target
    have henv : ∀ f ∈ some env.find?, ∀ x, ∀ t ∈ f x, u.Keeps t := by
      rintro f ⟨⟩ x t ht
      exact htypes t (List.mem_append_right _ (Env.mem_types_of_find? ht))
    obtain ⟨made, v, hrun, hv, -, hmade⟩ := hsound.run_narrow hproper hg hpreds henv hcurrent
    obtain ⟨-, -, hcovers⟩ :=
      narrow_within_and_covers (h := u.classes) (hsound.canonical hcurrent) s.preds (some env.find?) g
    have houts : ((Graph.transfer s returns declared (.branch (some g)) env : InUniverse Outcome).run u).1.outs =
        [Graph.narrowed env g.target made.yes, Graph.narrowed env g.target made.no] := by
      rw [Graph.transfer, ← hcur, run_bind_of_run hrun]
      rfl
    rw [houts]
    -- a side that stands for one with values has values
    have hlive {t t' : Ty} (ht : v.Stands t t') (hne : t' ≠ .never) :
        some (env.bind g.target t) = Graph.narrowed env g.target t := by
      refine (Graph.narrowed_of_ne_never fun heq => hne ?_).symm
      subst heq
      exact (hv.mirroring.mirrors ht).eq_of_atom (by simp [atoms])
    rcases side_ne_never hne (hcovers hclosed) with hside | hside
    · exact ⟨_, List.mem_cons.2 (.inl (hlive hmade.yes hside))⟩
    · exact ⟨_, List.mem_cons_of_mem _ (List.mem_cons.2 (.inl (hlive hmade.no hside)))⟩

/-- A text as a condition may pass or fail: the two sides cover it, and the branch has a live way on. -/
theorem text_covered : (Universe.new 0).History ∧ Signature.isClosed .string = true ∧
    (∃ (made : Split) (v : Universe),
      ((Guard.truthy "x").narrow [] none .string : InUniverse Split).run (.new 0) = (made, v) ∧
        v.Below made.yes .string ∧ v.Below made.no .string ∧
          ((do TypeStore.subtype .string (← TypeStore.union [made.yes, made.no]) : InUniverse Bool).run v).1 =
            true) ∧
    ∃ live, some live ∈ ((Graph.transfer {} none {} (.branch (some (.truthy "x")))
      { bindings := [("x", .string)] } : InUniverse Outcome).run (.new 0)).1.outs := by
  have hu : (Universe.new 0).History := .new 0
  have hstring : (Universe.new 0).Keeps .string := (sound_new 0).atom (by simp [atoms])
  have hclosed : Signature.isClosed .string = true := by simp [Signature.isClosed, freeVars, collectVars]
  obtain ⟨hsides, hlive⟩ := hu.guard_covers (.truthy "x") (by simp [types])
  obtain ⟨made, v, hrun, hyes, hno, hcovers⟩ :=
    hsides [] none .string (by simp [Predicates.types]) (by simp) hstring
  refine ⟨hu, hclosed, ⟨made, v, hrun, hyes, hno, hcovers fun _ _ => hclosed⟩, ?_⟩
  exact hlive {} none {} { bindings := [("x", .string)] } .string (by simp [Predicates.types])
    (by simpa [Env.types] using hstring) rfl (fun _ _ => hclosed) (by simp)

end Universe

/-! ## Names that are no words -/

namespace Session

open Universe Guard

/-- A type parameter, and what of it is a text. -/
def param : Ty := .var "T" none

def textParam : Ty := .inter [.string, param]

/-- The two with a shape whose name looks like the end of one shape and the start of another. -/
def disguisedSides : Ty := .union [textParam, disguised, param]

/-- The type that is split. -/
def subject : Ty := .union [shapeA, shapeB, param]

/-- Makes the union with the disguised shape, then the one that is split. -/
def undercutting : List Call :=
  [.typeVar "T" none, .meet param .string,
    .object "" [{ name := "a:string;\x7d|obj<>\x7bb", type := .number }], .union [textParam, disguised, param],
    .object "" [{ name := "a", type := .string }], .object "" [{ name := "b", type := .number }],
    .union [shapeA, shapeB, param]]

/-- The entries after the first union was made. -/
def disguisedSidesEntries : List Ty :=
  atoms ++ [param] ++ [textParam] ++ [disguised] ++ [.literal (.bool true)] ++ [.literal (.bool false)] ++
    [disguisedSides]

/-- The entries after all calls. -/
def undercutEntries : List Ty := disguisedSidesEntries ++ [shapeA] ++ [shapeB] ++ [subject]

theorem run_meet_param {ts : List Ty} {u : Universe} {t : Ty} (hmade : (holding ts).intern textParam = (t, u))
    (hu : u.spent = false) : (TypeStore.meet param .string : InUniverse Ty).run (holding ts) = (t, u) := by
  have hinter : ((Rules.upTo (stepBound [param, .string])).intersect [param, .string] : InUniverse Ty).run
      (holding ts) = (holding ts).intern (.inter (sortByKey [param, .string])) := by
    with_unfolding_all rfl
  rw [sortByKey_congr (.swap _ _ _) (by decide), sortByKey_of_pairwise (by with_unfolding_all decide), ← textParam,
    hmade] at hinter
  exact run_bounded_of_run hinter rfl hu

theorem call_param {answered : List Ty} :
    ({ store := holding atoms, answered } : Session).call (.typeVar "T" none) =
      { store := holding (atoms ++ [param]), answered := param :: answered } := by
  show ({ store := ((holding atoms).intern param).2
          answered := [((holding atoms).intern param).1] ++ answered } : Session) = _
  rw [intern_of_not_mem (by decide) (by decide)]
  rfl

theorem call_textParam {answered : List Ty} :
    ({ store := holding (atoms ++ [param]), answered } : Session).call (.meet param .string) =
      { store := holding (atoms ++ [param] ++ [textParam]), answered := textParam :: answered } := by
  show ({ store := ((TypeStore.meet param .string : InUniverse Ty).run _).2
          answered := [((TypeStore.meet param .string : InUniverse Ty).run _).1] ++ answered } : Session) = _
  rw [run_meet_param (intern_of_not_mem (by decide) (by decide)) rfl]
  rfl

theorem run_union_disguisedSides : (TypeStore.union [textParam, disguised, param] : InUniverse Ty).run
    (holding (atoms ++ [param] ++ [textParam] ++ [disguised])) = (disguisedSides, holding disguisedSidesEntries) := by
  have hsimplified : simplified [textParam, disguised, param] = [textParam, disguised, param] := rfl
  have hsorted : sortByKey [textParam, disguised, param] = [textParam, disguised, param] :=
    sortByKey_of_pairwise (by with_unfolding_all decide)
  rw [run_union_of_simplified rfl hsimplified, hsorted, intern_of_not_mem (by decide) (by decide),
    intern_of_not_mem (by decide) (by decide), intern_of_not_mem (by decide) (by decide), disguisedSidesEntries,
    disguisedSides]

theorem run_union_subject : (TypeStore.union [shapeA, shapeB, param] : InUniverse Ty).run
    (holding (disguisedSidesEntries ++ [shapeA] ++ [shapeB])) = (subject, holding undercutEntries) := by
  rw [run_union_of_sorted (by decide) (by simp [disguisedSidesEntries]) rfl rfl (by with_unfolding_all decide),
    intern_of_not_mem (by decide) (by decide)]
  rfl

theorem run_undercutting : (start 0).run undercutting =
    { store := holding undercutEntries
      answered := [subject, shapeB, shapeA, disguisedSides, disguised, textParam, param] ++ atoms } := by
  have hstart : start 0 = { store := holding atoms, answered := atoms } := rfl
  rw [hstart, undercutting]
  simp only [run, List.foldl]
  rw [call_param, call_textParam, call_object (by decide) (by decide), ← disguised,
    call_union run_union_disguisedSides, call_object (by decide) (by decide), ← shapeA,
    call_object (by decide) (by decide), ← shapeB, call_union run_union_subject]
  rfl

/-- Only the type parameter may be a text, and none. -/
theorem splitTypeof_subject : (splitTypeof "string" subject : InUniverse Split) = (do
      let both ← TypeStore.meet param .string
      let yes ← TypeStore.union [.never, .never, both]
      let no ← TypeStore.union [shapeA, shapeB, param]
      return { yes, no }) := by
  have htag : typeofTags.find? (fun known => Text.ofString known = "string") = some "string" := by decide
  rw [splitTypeof, htag]
  simp [splitBy, subject, members, typeofTag, shapeA, shapeB, param, typeofType]

theorem undercut_nodup : (undercutEntries.map Ty.key).Nodup := by decide

theorem undercut_bools (b : Bool) : .literal (.bool b) ∈ undercutEntries := by
  cases b <;> simp [undercutEntries, disguisedSidesEntries]

theorem run_narrow_subject :
    ((Guard.typeOf "x" "string").narrow [] none subject : InUniverse Split).run (holding undercutEntries) =
      ({ yes := textParam, no := subject }, holding undercutEntries) := by
  have hbool (b : Bool) : (holding undercutEntries).intern (.literal (.bool b)) =
      (.literal (.bool b), holding undercutEntries) :=
    intern_of_mem undercut_nodup (undercut_bools b) rfl
  have hmeet : (TypeStore.meet param .string : InUniverse Ty).run (holding undercutEntries) =
      (textParam, holding undercutEntries) :=
    run_meet_param (intern_of_mem undercut_nodup (by simp [undercutEntries, disguisedSidesEntries]) rfl) rfl
  have hyes : (TypeStore.union [.never, .never, textParam] : InUniverse Ty).run (holding undercutEntries) =
      (textParam, holding undercutEntries) := by
    rw [run_union_of_one (t := textParam) rfl rfl, hbool, hbool]
  have hno : (TypeStore.union [shapeA, shapeB, param] : InUniverse Ty).run (holding undercutEntries) =
      (subject, holding undercutEntries) := by
    rw [run_union_of_sorted undercut_nodup undercut_bools rfl rfl (by with_unfolding_all decide)]
    exact intern_of_mem undercut_nodup (by simp [undercutEntries, subject]) rfl
  have hsplit : (splitTypeof "string" subject : InUniverse Split).run (holding undercutEntries) =
      ({ yes := textParam, no := subject }, holding undercutEntries) := by
    rw [splitTypeof_subject, run_bind_of_run hmeet, run_bind_of_run hyes, run_bind_of_run hno]
    rfl
  rw [narrow, Guard.split, run_bind_of_run hsplit]
  rfl

/-- The sides of a test for texts are a part of the type and the whole of it, and yet their union does not cover the
type: it is the union that was made before under the same key. -/
theorem collision_not_covered :
    subject ∈ ((start 0).run undercutting).answered ∧
      ∃ (made : Split) (v : Universe),
        ((Guard.typeOf "x" "string").narrow [] none subject : InUniverse Split).run
          ((start 0).run undercutting).store = (made, v) ∧
        v.Below made.yes subject ∧ v.Below made.no subject ∧
          ((do TypeStore.subtype subject (← TypeStore.union [made.yes, made.no]) : InUniverse Bool).run v).1 =
            false := by
  rw [run_undercutting]
  refine ⟨by simp, _, _, run_narrow_subject, rfl, below_self _ _, ?_⟩
  have hunion : (TypeStore.union [textParam, subject] : InUniverse Ty).run (holding undercutEntries) =
      (disguisedSides, holding undercutEntries) := by
    have hkey : (Ty.union [textParam, shapeA, shapeB, param]).key = disguisedSides.key := by decide
    rw [run_union_holding undercut_nodup undercut_bools
      (show alternativesAll _ = some [textParam, shapeA, shapeB, param] from rfl) rfl
      (sortByKey_of_pairwise (by with_unfolding_all decide))]
    exact intern_of_mem undercut_nodup (by simp [undercutEntries, disguisedSidesEntries]) hkey
  rw [run_bind_of_run hunion]
  rfl

end Session
end FlowTyping
