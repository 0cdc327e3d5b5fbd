import FlowTyping.Guard.Exhaustive
import FlowTyping.Proofs.Flow.Written
import FlowTyping.Proofs.Store.Keeping

/-!
# Guards split entries into entries

A guard is tested with operations of the universe. So whatever can be relied on in the universe before the test,
both sides of the split are entries after it.

* **`Regime.Serving.narrow`** — a guard splits an entry into entries.
* **`Regime.Serving.splitCases`** — so do the cases of a switch.
-/

namespace FlowTyping

open Ty Universe

/-- Both sides are entries. -/
def Split.KeptIn (s : Split) (u : Universe) : Prop := u.Keeps s.yes ∧ u.Keeps s.no

namespace Guard

/-- The rule for a member whose class is asked for, where the shape of the class is known. -/
def instanceSides {m : Type → Type} [TypeStore m] (h : Hierarchy) (tag : String) (shape t : Ty) : m (Ty × Ty) := do
  match t with
  | .object own _ =>
    if own.isEmpty then return (← TypeStore.meet t shape, t)
    else if h.derives own tag then return (t, .never)
    else if h.derives tag own then return (shape, t)
    else return (.never, t)
  | .unknown => return (shape, t)
  | .never | .null | .undefined | .boolean | .number | .string | .literal _ => return (.never, t)
  | _ => return (← TypeStore.meet t shape, t)

theorem splitInstance_eq {m : Type → Type} [TypeStore m] (tag : String) (current : Ty) :
    (splitInstance tag current : m Split) = (do
      let h ← TypeStore.hierarchy
      match h.find? tag with
      | none => return .unchanged current (.undeclaredClass tag)
      | some c =>
        let shape ← match c.shape with
          | some shape => pure shape
          | none => TypeStore.object tag []
        splitBy current (instanceSides h tag shape)) := rfl

end Guard

namespace Universe.Regime

variable {R : Regime} {u v : Universe} {s t : Ty} {preds : Predicates}

theorem keeps_split (huv : R.Grows u v) {s : Split} (hs : s.KeptIn u) : s.KeptIn v :=
  ⟨R.keeps huv hs.1, R.keeps huv hs.2⟩

/-- A split that is made without the universe. -/
theorem yields_split {s : Split} (hs : s.KeptIn u) : R.Yields u (pure s) fun v s => s.KeptIn v :=
  .pure fun _ _ huv => R.keeps_split huv hs

theorem yields_pair (hs : u.Keeps s) (ht : u.Keeps t) :
    R.Yields u (pure (s, t)) fun v sides => v.Keeps sides.1 ∧ v.Keeps sides.2 :=
  .pure fun _ _ huv => ⟨R.keeps huv hs, R.keeps huv ht⟩

theorem yields_unchanged (ht : u.Keeps t) (reason : Degradation) :
    R.Yields u (pure (Split.unchanged t reason)) fun v s => s.KeptIn v := R.yields_split ⟨ht, ht⟩

namespace Serving

variable (hR : R.Serving)

include hR

theorem splitBy {f : Ty → InUniverse (Ty × Ty)}
    (hf : ∀ m ∈ t.members, R.Yields u (f m) fun v sides => v.Keeps sides.1 ∧ v.Keeps sides.2) :
    R.Yields u (Guard.splitBy t f) fun v s => s.KeptIn v := by
  refine (Yields.mapM (P := fun v _ (sides : Ty × Ty) => v.Keeps sides.1 ∧ v.Keeps sides.2)
    (fun huv h => ⟨R.keeps huv h.1, R.keeps huv h.2⟩) hf).bind fun v parts _ _ hparts => ?_
  have hpart (sides) (hsides : sides ∈ parts) : v.Keeps sides.1 ∧ v.Keeps sides.2 := by
    obtain ⟨_, -, h⟩ := exists_mem_left hparts hsides
    exact h
  refine (hR.union (List.forall_mem_map.2 fun sides h => (hpart sides h).1)).bind fun w yes _ hvw hyes => ?_
  refine (hR.union (List.forall_mem_map.2 fun sides h => R.keeps hvw (hpart sides h).2)).bind
    fun w' no _ hww' hno => yields_split ⟨R.keeps hww' hyes, hno⟩

/-- One side is what an alternative has in common with a type, the other one is all of it. -/
theorem meet_pair (hs : u.Keeps s) (ht : u.Keeps t) :
    R.Yields u (do return (← TypeStore.meet s t, s)) fun v sides => v.Keeps sides.1 ∧ v.Keeps sides.2 :=
  (hR.intersect (by simp [hs, ht])).bind fun _ _ _ huv hmet => yields_pair hmet (R.keeps huv hs)

theorem typeofType (tag : String) (hempty : R.Word "") :
    R.Yields u (Guard.typeofType tag) fun v found => ∀ t ∈ found, v.Keeps t := by
  have hatom {t : Ty} (ht : t ∈ atoms) :
      R.Yields u (pure (some t)) fun v found => ∀ t ∈ found, v.Keeps t :=
    .pure fun v hv _ s hs => Option.some.inj hs ▸ R.atom hv ht
  rw [Guard.typeofType.eq_def]
  split
  · exact hatom (by simp [atoms])
  · exact hatom (by simp [atoms])
  · exact hatom (by simp [atoms])
  · exact hatom (by simp [atoms])
  · refine (hR.object hempty (by simp) (by simp)).bind fun v object hv _ hobject => ?_
    refine (hR.union_two (R.atom hv (by simp [atoms])) hobject).bind
      fun w t _ _ ht => .pure fun w' _ hww' s hs => ?_
    exact Option.some.inj hs ▸ R.keeps hww' ht
  · exact .pure fun _ _ _ => by simp

theorem splitTypeof (tag : Text) (hempty : R.Word "") (ht : u.Keeps t) :
    R.Yields u (Guard.splitTypeof tag t) fun v s => s.KeptIn v := by
  rw [Guard.splitTypeof]
  split
  · rename_i known _
    refine .of_holds fun v hv huv => hR.splitBy fun m hm => ?_
    have hkept := R.keeps_member hv (R.keeps huv ht) hm
    have hnever := R.atom hv (t := .never) (by simp [atoms])
    dsimp only
    split
    · exact yields_pair hkept hnever
    split
    · refine (hR.typeofType known hempty).bind fun w found _ hvw hfound => ?_
      cases found with
      | some all => exact hR.meet_pair (R.keeps hvw hkept) (hfound all rfl)
      | none => exact yields_pair (R.keeps hvw hkept) (R.keeps hvw hkept)
    · exact yields_pair hnever hkept
  · exact yields_unchanged ht _

theorem splitTruthy (ht : u.Keeps t) : R.Yields u (Guard.splitTruthy t) fun v s => s.KeptIn v := by
  refine .of_holds fun v hv huv => hR.splitBy fun m hm => ?_
  have hside (b : Bool) : v.Keeps (if b then m else .never) := by
    cases b with
    | true => exact R.keeps_member hv (R.keeps huv ht) hm
    | false => exact R.atom hv (by simp [atoms])
  exact yields_pair (hside _) (hside _)

theorem without (hs : u.Keeps s) : R.Answers u (Guard.without s t) := by
  rw [Guard.without]
  dsimp only
  split
  · refine .of_holds fun v hv huv => ?_
    refine (Yields.mapM (P := fun w _ kept => ∀ t ∈ kept, w.Keeps t)
      (fun hvw h t ht => R.keeps hvw (h t ht)) fun m hm => ?_).bind fun w kept _ _ hkept => hR.union fun t ht => ?_
    · have hm := R.keeps_member hv (R.keeps huv hs) hm
      -- the member goes, or it is `boolean` and one truth value is left of it, or it stays
      split
      · exact .pure fun _ _ _ => by simp
      split
      · refine (hR.literal _).bind fun w yes _ _ hyes => (hR.literal _).bind fun w' no _ hww' hno =>
          .pure fun w'' _ hw'' t ht => R.keeps hw'' ?_
        rcases (by simpa using (List.mem_filter.1 ht).1 : t = yes ∨ t = no) with rfl | rfl
        · exact R.keeps hww' hyes
        · exact hno
      · exact .pure fun _ _ hvw t ht => List.mem_singleton.1 ht ▸ R.keeps hvw hm
    · obtain ⟨ts, hts, ht⟩ := List.mem_flatten.1 ht
      obtain ⟨_, -, hall⟩ := exists_mem_left hkept hts
      exact hall t ht
  · exact .pure fun _ _ huv => R.keeps huv hs

/-- The type of a property with what it is where it is missing. -/
theorem present (optional : Bool) (ht : u.Keeps t) :
    R.Answers u (if optional then TypeStore.union [t, .undefined] else pure t) := by
  cases optional with
  | true =>
    exact .of_holds fun v hv huv => hR.union (by simpa using ⟨R.keeps huv ht, R.atom hv (by simp [atoms])⟩)
  | false => exact .pure fun _ _ huv => R.keeps huv ht

theorem splitDiscriminant_go {current value : Ty} {prop : Text} {yes no ts : List Ty} (hcurrent : u.Keeps current)
    (hvalue : u.Keeps value) (hyes : ∀ t ∈ yes, u.Keeps t) (hno : ∀ t ∈ no, u.Keeps t) (hts : ∀ t ∈ ts, u.Keeps t) :
    R.Yields u (Guard.splitDiscriminant.go current prop value yes no ts) fun v s => s.KeptIn v := by
  induction ts generalizing u yes no with
  | nil =>
    rw [Guard.splitDiscriminant.go]
    exact (hR.union hyes).bind fun v yes _ huv hyes => (hR.union fun t ht => R.keeps huv (hno t ht)).bind
      fun w no _ hvw hno => yields_split ⟨R.keeps hvw hyes, hno⟩
  | cons t ts ih =>
    rw [Guard.splitDiscriminant.go]
    have ht := hts t (by simp)
    refine (hR.propertyOf prop ht).bind fun v found _ hv hfound => ?_
    cases found with
    | none => exact yields_unchanged (R.keeps hv hcurrent) _
    | some p =>
      dsimp only
      refine (hR.present p.optional (hfound p rfl)).ite_bind fun v₁ field _ h₁ hfield => ?_
      split
      · exact yields_unchanged (R.keeps (R.trans hv h₁) hcurrent) _
      have hgrown := R.trans hv h₁
      refine (hR.intersect_two hfield (R.keeps hgrown hvalue)).bind
        fun v₂ met _ h₂ _ => ?_
      refine (hR.without (R.keeps h₂ hfield)).bind fun v₃ left _ h₃ _ => ?_
      have hgrown := R.trans hgrown (R.trans h₂ h₃)
      -- each side stays as it is, or gets the alternative `t`
      have hside (b : Bool) {side : List Ty} (hside : ∀ s ∈ side, u.Keeps s) :
          ∀ s ∈ if b then side else side ++ [t], v₃.Keeps s := by
        intro s hs
        refine R.keeps hgrown ?_
        cases b with
        | true => exact hside s hs
        | false =>
          rcases List.mem_append.1 hs with hs | hs
          · exact hside s hs
          · exact List.mem_singleton.1 hs ▸ ht
      exact ih (R.keeps hgrown hcurrent) (R.keeps hgrown hvalue) (hside _ hyes) (hside _ hno)
        fun s hs => R.keeps hgrown (hts s (by simp [hs]))

theorem splitDiscriminant {current value : Ty} (prop : Text) (hcurrent : u.Keeps current) (hvalue : u.Keeps value) :
    R.Yields u (Guard.splitDiscriminant current prop value) fun v s => s.KeptIn v := by
  rw [Guard.splitDiscriminant]
  split
  · exact yields_unchanged hcurrent _
  · exact .of_holds fun v hv huv => hR.splitDiscriminant_go (R.keeps huv hcurrent) (R.keeps huv hvalue) (by simp)
      (by simp) fun t ht => R.keeps_member hv (R.keeps huv hcurrent) ht

theorem splitEquality (op : EqOp) (prop : Option Text) (hs : u.Keeps s) (ht : u.Keeps t) :
    R.Yields u (Guard.splitEquality op prop s t) fun v s => s.KeptIn v := by
  -- a loose comparison with one of `null` and `undefined` asks for both
  have hright : R.Answers u
      (if op.loose && Guard.isNullish s then TypeStore.union [.null, .undefined] else pure s) := by
    split
    · exact .of_holds fun v hv _ => hR.union (by simpa using ⟨R.atom hv (by simp [atoms]), R.atom hv (by simp [atoms])⟩)
    · exact .pure fun _ _ huv => R.keeps huv hs
  rw [Guard.splitEquality]
  dsimp only
  refine hright.ite_bind fun v right _ huv hright => ?_
  have ht := R.keeps huv ht
  -- a negated comparison swaps the sides
  have hturned {w : Universe} {s : Split} (hs : s.KeptIn w) :
      R.Yields w (pure (if op.negated then s.swap else s)) fun v s => s.KeptIn v := by
    split
    · exact yields_split ⟨hs.2, hs.1⟩
    · exact yields_split hs
  cases prop with
  | some prop => exact (hR.splitDiscriminant prop ht hright).bind fun _ _ _ _ hs => hturned hs
  | none =>
    refine (hR.intersect_two ht hright).bind fun w yes _ hvw hyes => ?_
    refine (hR.without (R.keeps hvw ht)).bind fun w' no _ hww' hno => ?_
    rw [pure_bind]
    exact hturned ⟨R.keeps hww' hyes, hno⟩

theorem splitHas (prop : Text) (ht : u.Keeps t) : R.Yields u (Guard.splitHas prop t) fun v s => s.KeptIn v := by
  refine .of_holds fun v hv huv => hR.splitBy fun m hm => ?_
  have hkept := R.keeps_member hv (R.keeps huv ht) hm
  have hnever := R.atom hv (t := .never) (by simp [atoms])
  -- a property that may be missing leaves its member on both sides
  have hfound {w : Universe} (hvw : R.Grows v w) (p : Property Ty) :
      R.Yields w (pure (m, if p.optional then m else .never)) fun v sides => v.Keeps sides.1 ∧ v.Keeps sides.2 := by
    refine yields_pair (R.keeps hvw hkept) (R.keeps hvw ?_)
    cases p.optional with
    | true => exact hkept
    | false => exact hnever
  cases m with
  | unknown => exact yields_pair hkept hkept
  | object _ _ | tuple _ _ | function _ _ | inter _ =>
    refine (hR.propertyOf prop hkept).bind fun w found _ hvw _ => ?_
    cases found with
    | none => exact yields_pair (R.keeps hvw hnever) (R.keeps hvw hkept)
    | some p => exact hfound hvw p
  | var _ _ =>
    refine (hR.propertyOf prop hkept).bind fun w found _ hvw _ => ?_
    cases found with
    | none => exact yields_pair (R.keeps hvw hkept) (R.keeps hvw hkept)
    | some p => exact hfound hvw p
  | _ => exact yields_pair hnever hkept

theorem instanceSides (h : Hierarchy) (tag : String) (hnever : u.Keeps .never) (hs : u.Keeps s) (ht : u.Keeps t) :
    R.Yields u (Guard.instanceSides h tag s t) fun v sides => v.Keeps sides.1 ∧ v.Keeps sides.2 := by
  cases t with
  | object own props =>
    rw [Guard.instanceSides]
    split
    · exact hR.meet_pair ht hs
    split
    · exact yields_pair ht hnever
    split
    · exact yields_pair hs ht
    · exact yields_pair hnever ht
  | unknown => exact yields_pair hs ht
  | tuple _ _ | function _ _ | union _ | inter _ | var _ _ => exact hR.meet_pair ht hs
  | _ => exact yields_pair hnever ht

theorem splitInstance (hwords : ∀ name, R.Word name) (tag : String) (ht : u.Keeps t) :
    R.Yields u (Guard.splitInstance tag t) fun v s => s.KeptIn v := by
  rw [Guard.splitInstance_eq]
  refine (R.yields_hierarchy).bind fun v h hv huv hclasses => ?_
  subst hclasses
  have ht := R.keeps huv ht
  have hsides {w : Universe} {shape : Ty} (hvw : R.Grows v w) (hshape : w.Keeps shape) :
      R.Yields w (Guard.splitBy t (Guard.instanceSides v.classes tag shape)) fun v s => s.KeptIn v :=
    .of_holds fun w' hw' hww' => hR.splitBy fun m hm => hR.instanceSides _ tag (R.atom hw' (by simp [atoms]))
      (R.keeps hww' hshape) (R.keeps_member hw' (R.keeps (R.trans hvw hww') ht) hm)
  cases hfind : v.classes.find? tag with
  | none => exact yields_unchanged ht _
  | some c =>
    cases hshape : c.shape with
    | some shape =>
      simp only [hshape, pure_bind]
      exact hsides (R.refl v) (R.shape hv c (List.mem_of_find?_eq_some hfind) shape hshape)
    | none =>
      simp only [hshape]
      -- a bare class stands for the shape with its tag and nothing else
      exact (hR.object (hwords _) (by simp) (by simp)).bind fun w shape _ hvw hshape => hsides hvw hshape

theorem narrowTo (hs : u.Keeps s) (ht : u.Keeps t) : R.Answers u (Guard.narrowTo s t) := by
  refine .of_holds fun v hv huv => ?_
  have hs := R.keeps huv hs
  have ht := R.keeps huv ht
  refine (Yields.filterM fun m hm => hR.subtype (R.keeps_member hv hs hm) ht).bind fun v₁ found _ h₁ hfound => ?_
  refine (hR.union fun m hm => R.keeps h₁ (R.keeps_member hv hs (hfound m hm))).bind fun v₂ within _ h₂ hwithin => ?_
  have hgrown := R.trans h₁ h₂
  split
  · exact hR.intersect (by simpa using ⟨R.keeps hgrown hs, R.keeps hgrown ht⟩)
  · exact .pure fun _ _ hvw => R.keeps hvw hwithin

theorem splitPredicate (hpreds : ∀ t ∈ preds.types, u.Keeps t) (fn : String) (position : Int) (ht : u.Keeps t) :
    R.Yields u (Guard.splitPredicate preds fn position t) fun v s => s.KeptIn v := by
  rw [Guard.splitPredicate]
  split
  · exact yields_unchanged ht _
  rename_i decl hfind
  have hnarrows : u.Keeps decl.narrows := by
    obtain ⟨before, after, rfl, -⟩ := List.lookup_eq_some_iff.1 hfind
    exact hpreds _ (by simp [Predicates.types])
  split
  · exact yields_unchanged ht _
  refine .of_holds fun v hv huv => ?_
  have ht := R.keeps huv ht
  have hnarrows := R.keeps huv hnarrows
  refine (Yields.filterM fun m hm => (hR.subtype (R.keeps_member hv ht hm) hnarrows).bind fun _ _ _ _ _ =>
    .pure fun _ _ _ => trivial).bind fun v₁ found _ h₁ hfound => ?_
  refine (hR.union fun m hm => R.keeps h₁ (R.keeps_member hv ht (hfound m hm))).bind fun v₂ no _ h₂ hno => ?_
  have hgrown := R.trans h₁ h₂
  exact (hR.narrowTo (R.keeps hgrown ht) (R.keeps hgrown hnarrows)).bind fun w yes _ hw hyes =>
    yields_split ⟨hyes, R.keeps hw hno⟩

theorem split (hwords : ∀ name, R.Word name) (hpreds : ∀ t ∈ preds.types, u.Keeps t)
    {env : Option (String → Option Ty)} (henv : ∀ lookup ∈ env, ∀ x, ∀ t ∈ lookup x, u.Keeps t) {g : Guard}
    (hg : ∀ t ∈ g.types, u.Keeps t) (ht : u.Keeps t) :
    R.Yields u (g.split preds env t) fun v s => s.KeptIn v := by
  cases g with
  | typeOf _ tag => exact hR.splitTypeof tag (hwords _) ht
  | truthy _ => exact hR.splitTruthy ht
  | equality op left right =>
    rw [Guard.split]
    split
    · rename_i found hfound
      refine hR.splitEquality op left.prop ?_ ht
      cases right with
      | type s =>
        obtain rfl : s = found := Except.ok.inj hfound
        exact hg s (by simp [Guard.types])
      | var name =>
        cases env with
        | none => simp [Guard.comparandType] at hfound
        | some lookup =>
          cases hlookup : lookup name with
          | none => simp [Guard.comparandType, hlookup] at hfound
          | some s =>
            obtain rfl : s = found := by simpa [Guard.comparandType, hlookup] using hfound
            exact henv lookup rfl name s hlookup
    · exact yields_unchanged ht _
  | has prop _ => exact hR.splitHas prop ht
  | instanceOf _ tag => exact hR.splitInstance hwords tag ht
  | discriminant _ prop value => exact hR.splitDiscriminant prop ht (hg value (by simp [Guard.types]))
  | predicate fn position _ => exact hR.splitPredicate hpreds fn position ht

theorem withinInput {s : Split} (hs : s.KeptIn u) (ht : u.Keeps t) :
    R.Yields u (Guard.withinInput t s) fun v s => s.KeptIn v := by
  rw [Guard.withinInput]
  refine (hR.subtype hs.1 ht).bind fun v within _ huv _ => ?_
  -- a side that is not within the input becomes the input
  have hyes : R.Yields v (if within then pure s else pure { s with yes := t, degraded := true })
      fun v s => s.KeptIn v := by
    cases within with
    | true => exact yields_split (R.keeps_split huv hs)
    | false => exact yields_split ⟨R.keeps huv ht, R.keeps huv hs.2⟩
  dsimp only
  refine hyes.ite_bind fun w s _ hvw hs => ?_
  have ht := R.keeps (R.trans huv hvw) ht
  refine (hR.subtype hs.2 ht).bind fun w' within _ hww' _ => ?_
  cases within with
  | true => exact yields_split (R.keeps_split hww' hs)
  | false => exact yields_split ⟨R.keeps hww' hs.1, R.keeps hww' ht⟩

/-- **A guard splits an entry into entries.** -/
theorem narrow (hwords : ∀ name, R.Word name) (hpreds : ∀ t ∈ preds.types, u.Keeps t)
    {env : Option (String → Option Ty)} (henv : ∀ lookup ∈ env, ∀ x, ∀ t ∈ lookup x, u.Keeps t) {g : Guard}
    (hg : ∀ t ∈ g.types, u.Keeps t) (ht : u.Keeps t) :
    R.Yields u (g.narrow preds env t) fun v s => s.KeptIn v :=
  (hR.split hwords hpreds henv hg ht).bind fun _ _ _ huv hs => hR.withinInput hs (R.keeps huv ht)

/-- **The cases of a switch take an entry apart into entries.** -/
theorem splitCases (hwords : ∀ name, R.Word name) (hpreds : ∀ t ∈ preds.types, u.Keeps t) (prop : Option Text)
    (ht : u.Keeps t) {values : List Ty} (hvalues : ∀ s ∈ values, u.Keeps s) :
    R.Yields u (Guard.splitCases preds prop t values) fun v c => ∀ s ∈ c.residual :: c.cases, v.Keeps s := by
  induction values generalizing u t with
  | nil => exact .pure fun _ _ huv => by simpa using R.keeps huv ht
  | cons value values ih =>
    have hg : ∀ s ∈ (Guard.ofCase prop value).types, u.Keeps s := by
      have hvalue := hvalues value (by simp)
      cases prop <;> simpa [Guard.ofCase, Guard.types] using hvalue
    refine (hR.narrow hwords hpreds (by simp) hg ht).bind fun v s _ huv hs => ?_
    refine (ih (fun s hs => R.keeps huv (hpreds s hs)) hs.2 fun s hs => R.keeps huv (hvalues s (by simp [hs]))).bind
      fun w rest _ hvw hrest => .pure fun w' _ hww' t ht => R.keeps hww' ?_
    rcases List.mem_cons.1 ht with rfl | ht
    · exact hrest _ (by simp)
    · rcases List.mem_cons.1 ht with rfl | ht
      · exact R.keeps hvw hs.1
      · exact hrest t (by simp [ht])

end Serving

end Universe.Regime
end FlowTyping
