import FlowTyping.Flow.Transfer
import FlowTyping.Proofs.Relation.Order
import FlowTyping.Proofs.Relation.Meet
import FlowTyping.Proofs.Ty.Vars

/-!
# The two sides of a split cover the type

A guard splits the type of its variable into what it is where the guard holds and what it is where it
does not. Whatever the guard, both sides stay within the type, and together they cover it: each
alternative goes whole to one of the sides, or is a `boolean` whose two values are dealt out.

* **`Split.Covers`** — the alternatives of a type are all on one of the sides.
* **`Guard.split_covers`** — every rule covers. A condition on the bare variable needs that no type
  parameter is involved, since an intersection with one can seem neither to pass nor to fail.
* **`Guard.narrow_within_and_covers`** — the same of `narrow`, in terms of subtyping.
-/

namespace FlowTyping

open Ty

namespace Split

/-- Every alternative of a type is on one of the sides; a `boolean` may be dealt out by values. -/
structure Covers (s : Split) (t : Ty) : Prop where
  yes_flat : s.yes.Flat
  no_flat : s.no.Flat
  holds : ∀ m ∈ t.members, s.yes.Holds m ∨ s.no.Holds m ∨
    m = .boolean ∧ ∀ b, s.yes.Holds (.literal (.bool b)) ∨ s.no.Holds (.literal (.bool b))

namespace Covers

variable {h : Hierarchy} {s : Split} {t : Ty}

theorem swap (hs : s.Covers t) : s.swap.Covers t where
  yes_flat := hs.no_flat
  no_flat := hs.yes_flat
  holds m hm := by
    rcases hs.holds m hm with hy | hn | ⟨rfl, hb⟩
    · exact .inr (.inl hy)
    · exact .inl hn
    · exact .inr (.inr ⟨rfl, fun b => (hb b).symm⟩)

/-- Sides that keep the whole type cover it. -/
theorem unchanged (ht : t.Flat) (reason : Degradation) : (Split.unchanged t reason).Covers t where
  yes_flat := ht
  no_flat := ht
  holds _ hm := .inl (.of_mem hm)

/-- A type is below the union of sides that cover it. -/
theorem subtype (ht : Canonical t) (hs : s.Covers t) :
    h.subtype t (h.union [s.yes, s.no]) = true := by
  have hside {x : Ty} (hx : s.yes.Holds x ∨ s.no.Holds x) : (h.union [s.yes, s.no]).Holds x := by
    rcases hx with hx | hx
    · exact Hierarchy.holds_union hs.yes_flat (by simp) hx
    · exact Hierarchy.holds_union hs.no_flat (by simp) hx
  refine Hierarchy.subtype_of_members ht (Hierarchy.union_flat h _) fun m hm => ?_
  rcases hs.holds m hm with hy | hn | ⟨rfl, hb⟩
  · exact hside (.inl hy)
  · exact hside (.inr hn)
  · exact Hierarchy.holds_boolean fun b => hside (hb b)

end Covers
end Split

namespace Guard

variable {h : Hierarchy} {current : Ty}

/-! ## Rules that split member by member -/

@[simp] theorem run_splitBy (t : Ty) (f : Ty → Ideal h (Ty × Ty)) :
    (splitBy t f).run = { yes := h.union (t.members.map fun x => (f x).run.1)
                          no := h.union (t.members.map fun x => (f x).run.2) } := by
  simp only [splitBy, Ideal.run_bind, Ideal.run_mapM, Ideal.run_union, Ideal.run_pure, List.map_map]
  rfl

/-- A rule covers if it puts each member whole on one of the sides. -/
theorem splitBy_covers (hc : Canonical current) (f : Ty → Ideal h (Ty × Ty))
    (hf : ∀ m ∈ current.members, (f m).run.1 = m ∨ (f m).run.2 = m) :
    (splitBy current f).run.Covers current := by
  rw [run_splitBy]
  refine ⟨Hierarchy.union_flat h _, Hierarchy.union_flat h _, fun m hm => ?_⟩
  have halt := hc.flat.alternative hm
  have hself : Alternative m m := .self halt.isUnion halt.isNever
  rcases hf m hm with heq | heq
  · exact .inl (Hierarchy.holds_union_of_alternative (List.mem_map.2 ⟨m, hm, heq⟩) hself)
  · exact .inr (.inl (Hierarchy.holds_union_of_alternative (List.mem_map.2 ⟨m, hm, heq⟩) hself))

theorem splitTypeof_covers (hc : Canonical current) (tag : Text) :
    (splitTypeof tag current : Ideal h Split).run.Covers current := by
  rw [splitTypeof]
  cases typeofTags.find? (fun known => Text.ofString known = tag) with
  | none => exact .unchanged hc.flat _
  | some tag =>
    refine splitBy_covers hc _ fun m hm => ?_
    by_cases hown : m.typeofTag = tag
    · simp [hown]
    · by_cases hempty : m.typeofTag.isEmpty = true
      · rw [if_neg hown, if_pos hempty, Ideal.run_bind]
        cases (typeofType tag : Ideal h _).run <;> simp
      · simp [hown, hempty]

theorem splitHas_covers (hc : Canonical current) (prop : Text) :
    (splitHas prop current : Ideal h Split).run.Covers current := by
  refine splitBy_covers hc _ fun m hm => ?_
  cases m with
  | object _ _ | tuple _ _ | function _ _ | inter _ | var _ _ =>
    simp only [Ideal.run_bind, Ideal.run_propertyOf]
    cases h.propertyOf _ prop <;> simp
  | _ => simp

theorem splitInstance_covers (hc : Canonical current) (tag : String) :
    (splitInstance tag current : Ideal h Split).run.Covers current := by
  rw [splitInstance, Ideal.run_bind, Ideal.run_hierarchy]
  cases h.find? tag with
  | none => exact .unchanged hc.flat _
  | some c =>
    -- whether or not the class has a declared shape, each member is kept whole where it is not met
    cases hshape : c.shape
    all_goals
      simp only [hshape, Ideal.run_bind, Ideal.run_pure, Ideal.run_object]
      refine splitBy_covers hc _ fun m hm => ?_
      cases m with
      | object own props =>
        simp only [Ideal.run_ite]
        split
        · simp
        · split
          · simp
          · split <;> simp
      | _ => simp

/-! ## Conditions on the bare variable -/

theorem splitTruthy_covers (hc : Canonical current)
    (ht : ∀ m ∈ current.members, m.truthiness.1 = true ∨ m.truthiness.2 = true) :
    (splitTruthy current : Ideal h Split).run.Covers current := by
  refine splitBy_covers hc _ fun m hm => ?_
  rcases ht m hm with hpass | hfail
  · exact .inl (by simp [hpass])
  · exact .inr (by simp [hfail])

end Guard

namespace Ty

theorem truthinessAll_eq (ms : List Ty) :
    truthinessAll ms = (ms.all (·.truthiness.1), ms.all (·.truthiness.2)) := by
  induction ms with
  | nil => simp [truthinessAll]
  | cons m ms ih => simp [truthinessAll, ih]

/-- A member of an intersection that is no type parameter and cannot pass is a falsy value. -/
theorem sort?_of_not_pass {m : Ty} (hm : m.isMember = true ∧ m.isInter = false)
    (hv : ∀ name bound, m ≠ .var name bound) (hp : m.truthiness.1 = false) :
    m.sort? = some .null ∨ m.sort? = some .undefined ∨ m.isLiteral = true := by
  cases m with
  | null => exact .inl rfl
  | undefined => exact .inr (.inl rfl)
  | literal l => exact .inr (.inr rfl)
  | never | unknown | union _ => simp [isMember, isNever, isUnknown, isUnion] at hm
  | inter _ => simp [isInter] at hm
  | var name bound => exact absurd rfl (hv name bound)
  | _ => simp [truthiness] at hp

/-- A member of an intersection that is no type parameter and cannot fail is an object or a truthy
value. -/
theorem sort?_of_not_fail {m : Ty} (hm : m.isMember = true ∧ m.isInter = false)
    (hv : ∀ name bound, m ≠ .var name bound) (hf : m.truthiness.2 = false) :
    m.sort? = some .object ∨ m.isLiteral = true ∧ m.truthiness.1 = true := by
  cases m with
  | object _ _ | tuple _ _ | function _ _ => exact .inl rfl
  | literal l => exact .inr ⟨rfl, by simpa [truthiness] using hf⟩
  | never | unknown | union _ => simp [isMember, isNever, isUnknown, isUnion] at hm
  | inter _ => simp [isInter] at hm
  | var name bound => exact absurd rfl (hv name bound)
  | _ => simp [truthiness] at hf

theorem sort?_of_isLiteral {m : Ty} (hm : m.isLiteral = true) :
    ∃ s, m.sort? = some s ∧ s ≠ .null ∧ s ≠ .undefined ∧ s ≠ .object := by
  cases m with
  | literal l => cases l <;> exact ⟨_, rfl, by decide⟩
  | _ => simp [isLiteral] at hm

theorem sort?_eq_of_not_differ {a b : Ty} {s t : ValueSort} (ha : a.sort? = some s)
    (hb : b.sort? = some t) (hab : a.differInSort b = false) : s = t := by
  simpa [differInSort, ha, hb] using hab

/-- The members of an intersection are of one sort and not two literals, so they can all pass or can
all fail as a condition. -/
theorem truthiness_inter {ms : List Ty} (hc : Canonical (.inter ms))
    (hv : ∀ m ∈ ms, ∀ name bound, m ≠ .var name bound) :
    (Ty.inter ms).truthiness.1 = true ∨ (Ty.inter ms).truthiness.2 = true := by
  rw [truthiness, truthinessAll_eq, List.all_eq_true, List.all_eq_true]
  refine Classical.or_iff_not_imp_left.2 fun hpass b hb => ?_
  obtain ⟨a, ha, hpass⟩ : ∃ a ∈ ms, a.truthiness.1 = false := by simpa using hpass
  cases hfail : b.truthiness.2 with
  | true => rfl
  | false =>
    have hma := hc.neat.2.1 a ha
    have hmb := hc.neat.2.1 b hb
    have hsa := sort?_of_not_pass hma (hv a ha) hpass
    have hsb := sort?_of_not_fail hmb (hv b hb) hfail
    have hne : a ≠ b := by
      rintro rfl
      rcases hsb with hsb | ⟨-, hsb⟩
      · rcases hsa with hsa | hsa | hsa
        · simp [hsa] at hsb
        · simp [hsa] at hsb
        · obtain ⟨s, hs, -, -, hobject⟩ := sort?_of_isLiteral hsa
          exact hobject (by simpa [hs] using hsb)
      · simp [hpass] at hsb
    obtain ⟨hsort, hlit⟩ := (hc.apart ha hb hne).same_sort hma.1 hmb.1
    rcases hsb with hsb | ⟨hsb, -⟩
    · rcases hsa with hsa | hsa | hsa
      · exact absurd (sort?_eq_of_not_differ hsa hsb hsort) (by decide)
      · exact absurd (sort?_eq_of_not_differ hsa hsb hsort) (by decide)
      · obtain ⟨s, hs, -, -, hobject⟩ := sort?_of_isLiteral hsa
        exact absurd (sort?_eq_of_not_differ hs hsb hsort) hobject
    · obtain ⟨s, hs, hnull, hundefined, -⟩ := sort?_of_isLiteral hsb
      rcases hsa with hsa | hsa | hsa
      · exact absurd (sort?_eq_of_not_differ hsa hs hsort).symm hnull
      · exact absurd (sort?_eq_of_not_differ hsa hs hsort).symm hundefined
      · exact absurd ⟨hsa, hsb⟩ hlit

/-- Without type parameters, every alternative can pass or can fail as a condition. -/
theorem truthiness_of_closed {m : Ty} (hc : Canonical m) (hm : m.isUnion = false ∧ m.isNever = false)
    (hv : m.freeVars = []) : m.truthiness.1 = true ∨ m.truthiness.2 = true := by
  cases m with
  | never => simp [isNever] at hm
  | union ms => simp [isUnion] at hm
  | var name bound => exact absurd hv (freeVars_var name bound)
  | inter ms =>
    refine truthiness_inter hc fun m hm name bound heq => ?_
    have hms : collectAll [] ms = [] := by rwa [freeVars, collectVars] at hv
    exact freeVars_var name bound (heq ▸ freeVars_of_collectAll hms hm)
  | literal l => cases hl : l.falsy <;> simp [truthiness, hl]
  | _ => simp [truthiness]

theorem truthiness_of_member {t m : Ty} (hc : Canonical t) (hv : t.freeVars = [])
    (hm : m ∈ t.members) : m.truthiness.1 = true ∨ m.truthiness.2 = true := by
  have halt := hc.flat.alternative hm
  cases t with
  | never => simp [members] at hm
  | union ms =>
    have hms : collectAll [] ms = [] := by rwa [freeVars, collectVars] at hv
    exact truthiness_of_closed (hc.part hm) ⟨halt.isUnion, halt.isNever⟩
      (freeVars_of_collectAll hms hm)
  | _ =>
    obtain rfl := List.mem_singleton.1 hm
    exact truthiness_of_closed hc ⟨rfl, rfl⟩ hv

end Ty

namespace Guard

/-! ## Comparisons -/

variable {h : Hierarchy} {current : Ty}

/-- What is kept of a member when single values are left out. -/
def keptOf (units : List Ty) (x : Ty) : List Ty :=
  if units.any (·.same x) then []
  else
    match x with
    | .boolean => [Ty.literal (.bool true), Ty.literal (.bool false)].filter fun v =>
        !units.any (·.same v)
    | _ => [x]

/-- A member that is not `boolean` stays as it is or goes. -/
theorem keptOf_of_ne (units : List Ty) {x : Ty} (hx : x ≠ .boolean) :
    keptOf units x = if units.any (·.same x) then [] else [x] := by
  cases x with
  | boolean => exact absurd rfl hx
  | _ => rfl

theorem run_without (t right : Ty) :
    (without t right : Ideal h Ty).run =
      if right.members.all Ty.isUnit then h.union (t.members.flatMap (keptOf right.members)) else t := by
  rw [without, Ideal.run_ite]
  split
  · rw [Ideal.run_bind, Ideal.run_mapM, Ideal.run_union, List.flatMap]
    congr 2
  · rfl

/-- A unit type that is left out of one side is on the other. -/
theorem without_holds (right : Ty) {m : Ty} (hc : Canonical current) (hm : m ∈ current.members) :
    (h.meet current right).Holds m ∨ (without current right : Ideal h Ty).run.Holds m ∨
      m = .boolean ∧ ∀ b, (h.meet current right).Holds (.literal (.bool b)) ∨
        (without current right : Ideal h Ty).run.Holds (.literal (.bool b)) := by
  rw [run_without]
  split
  · rename_i hunits
    rw [List.all_eq_true] at hunits
    -- what is excluded is met, in the part that both types have
    have hmeet {x : Ty} (hx : right.members.any (·.same x) = true)
        (hstands : ∀ u, u.key = x.key → StandsFor m u) : (h.meet current right).Holds x := by
      obtain ⟨u, hu, hk⟩ := List.any_eq_true.1 hx
      have hk := same_iff.1 hk
      rcases Hierarchy.holds_meet (h := h) (hunits u hu) (hstands u hk) hm hu with hk' | ⟨y, hy, hyu⟩
      · exact .inl hk'
      · exact .inr ⟨y, hy, hyu.trans (.inl hk)⟩
    have hkept {x : Ty} (hx : x ∈ keptOf right.members m) (hself : Alternative x x) :
        (h.union (current.members.flatMap (keptOf right.members))).Holds x :=
      Hierarchy.holds_union_of_alternative (List.mem_flatMap.2 ⟨m, hm, hx⟩) hself
    have halt := hc.flat.alternative hm
    by_cases hex : right.members.any (·.same m) = true
    · exact .inl (hmeet hex fun u hk => .inl hk.symm)
    · by_cases hb : m = .boolean
      · subst hb
        refine .inr (.inr ⟨rfl, fun b => ?_⟩)
        by_cases hexb : right.members.any (·.same (.literal (.bool b))) = true
        · refine .inl (hmeet hexb fun u hk => ?_)
          obtain ⟨l, rfl, hbase⟩ := literal_of_key_eq hk
          exact .inr ⟨l, rfl, hbase.symm⟩
        · refine .inr (hkept ?_ (.self rfl rfl))
          rw [keptOf, if_neg hex, List.mem_filter]
          exact ⟨by cases b <;> simp, by simpa using hexb⟩
      · refine .inr (.inl (hkept ?_ (.self halt.isUnion halt.isNever)))
        rw [keptOf.eq_def, if_neg hex]
        cases m with
        | boolean => exact absurd rfl hb
        | _ => simp
  · exact .inr (.inl (.of_mem hm))

theorem without_flat (hc : current.Flat) (right : Ty) :
    (without current right : Ideal h Ty).run.Flat := by
  rw [run_without]
  split
  · exact Hierarchy.union_flat h _
  · exact hc

theorem isNever_of_holds {t x : Ty} (ht : t.Holds x) : t.isNever = false := by
  cases t with
  | never =>
    rcases ht with ht | ⟨m, hm, -⟩
    · simp at ht
    · simp [members] at hm
  | _ => rfl

/-- A property that lists single values has one that is among the compared values or one that is
not. -/
theorem field_met_or_left {field value : Ty} (hf : field.allUnits = true)
    (hv : value.allUnits = true) :
    (h.meet field value).isNever = false ∨ (without field value : Ideal h Ty).run.isNever = false := by
  rw [allUnits, Bool.and_eq_true] at hf hv
  have hunits := List.all_eq_true.1 hf.2
  obtain ⟨u, hu⟩ : ∃ u, u ∈ field.members :=
    List.exists_mem_of_ne_nil _ (by simpa using hf.1)
  have hunit := hunits u hu
  by_cases hex : value.members.any (·.same u) = true
  · obtain ⟨v, hvm, hk⟩ := List.any_eq_true.1 hex
    have hvu := List.all_eq_true.1 hv.2 v hvm
    exact .inl (isNever_of_holds (Hierarchy.holds_meet hvu (.inl (same_iff.1 hk).symm) hu hvm))
  · right
    rw [run_without, if_pos hv.2]
    refine isNever_of_holds (x := u) (Hierarchy.holds_union_of_alternative (t := u) ?_
      (.self (Hierarchy.isUnion_of_unit hunit) (Hierarchy.isNever_of_unit hunit)))
    refine List.mem_flatMap.2 ⟨u, hu, ?_⟩
    rw [keptOf.eq_def, if_neg hex]
    cases u with
    | boolean => simp [isUnit] at hunit
    | _ => simp

/-- What a property can hold: `undefined`, too, if it may be left out. -/
def held (h : Hierarchy) (p : Property Ty) : Ty :=
  if p.optional then h.union [p.type, .undefined] else p.type

/-- One round of the loop over the alternatives. -/
theorem splitDiscriminant_go_cons (current value : Ty) {prop : Text} {t : Ty} {p : Property Ty}
    (hp : h.propertyOf t prop = some p) (yes no ts : List Ty) :
    (splitDiscriminant.go current prop value yes no (t :: ts) : Ideal h Split).run =
      if (held h p).allUnits then
        (splitDiscriminant.go current prop value
          (if (h.meet (held h p) value).isNever then yes else yes ++ [t])
          (if (without (held h p) value : Ideal h Ty).run.isNever then no else no ++ [t]) ts :
            Ideal h Split).run
      else .unchanged current (.propertyNotUnit t prop) := by
  rw [splitDiscriminant.go, Ideal.run_bind, Ideal.run_propertyOf, hp, held]
  cases ho : p.optional
  all_goals
    simp only [ho, if_true, if_false, reduceCtorEq]
    rw [Ideal.run_bind, Ideal.run_ite]
    split
    · rename_i hunits
      rw [if_neg (by simpa using hunits)]
      rfl
    · rename_i hunits
      rw [if_pos (by simpa using hunits)]
      rfl

/-- The loop over the alternatives gives up, or puts each of them on one of the sides. -/
theorem splitDiscriminant_go (current : Ty) (prop : Text) {value : Ty} (hv : value.allUnits = true)
    (yes no ts : List Ty) :
    (∃ reason, (splitDiscriminant.go current prop value yes no ts : Ideal h Split).run =
        .unchanged current reason) ∨
      ∃ more less, (splitDiscriminant.go current prop value yes no ts : Ideal h Split).run =
          { yes := h.union (yes ++ more), no := h.union (no ++ less) } ∧
        ∀ t ∈ ts, t ∈ more ∨ t ∈ less := by
  induction ts generalizing yes no with
  | nil => exact .inr ⟨[], [], by simp [splitDiscriminant.go], by simp⟩
  | cons t ts ih =>
    cases hp : h.propertyOf t prop with
    | none =>
      refine .inl ⟨.noProperty t prop, ?_⟩
      rw [splitDiscriminant.go, Ideal.run_bind, Ideal.run_propertyOf, hp]
      rfl
    | some p =>
      rw [splitDiscriminant_go_cons current value hp yes no ts]
      generalize held h p = field
      split
      · rename_i hf
        have hside := field_met_or_left (h := h) hf hv
        rcases ih _ _ with ⟨reason, heq⟩ | ⟨more, less, heq, hmem⟩
        · exact .inl ⟨reason, heq⟩
        · refine .inr ⟨(if (h.meet field value).isNever then [] else [t]) ++ more,
            (if (without field value : Ideal h Ty).run.isNever then [] else [t]) ++ less, ?_, ?_⟩
          · rw [heq]
            congr 2 <;> split <;> simp
          · intro s hs
            rcases List.mem_cons.1 hs with rfl | hs
            · rcases hside with hmet | hleft
              · exact .inl (by simp [hmet])
              · exact .inr (by simp [hleft])
            · exact (hmem s hs).imp (List.mem_append_right _) (List.mem_append_right _)
      · exact .inl ⟨_, rfl⟩

theorem splitDiscriminant_covers (hc : Canonical current) (prop : Text) (value : Ty) :
    (splitDiscriminant current prop value : Ideal h Split).run.Covers current := by
  rw [splitDiscriminant, Ideal.run_ite]
  split
  · exact .unchanged hc.flat _
  · rename_i hunits
    have hv : value.allUnits = true := by simpa using hunits
    rcases splitDiscriminant_go (h := h) current prop hv [] [] current.members with
      ⟨reason, heq⟩ | ⟨more, less, heq, hmem⟩
    · rw [heq]
      exact .unchanged hc.flat reason
    · rw [heq]
      refine ⟨Hierarchy.union_flat h _, Hierarchy.union_flat h _, fun m hm => ?_⟩
      have halt := hc.flat.alternative hm
      have hself : Alternative m m := .self halt.isUnion halt.isNever
      rcases hmem m hm with hmore | hless
      · exact .inl (Hierarchy.holds_union_of_alternative (by simpa using hmore) hself)
      · exact .inr (.inl (Hierarchy.holds_union_of_alternative (by simpa using hless) hself))

/-- The sides of a comparison before a negated operator swaps them. -/
def comparisonSides (h : Hierarchy) (prop : Option Text) (right current : Ty) : Split :=
  match prop with
  | some prop => (splitDiscriminant current prop right : Ideal h Split).run
  | none => { yes := h.meet current right, no := (without current right : Ideal h Ty).run }

/-- What a comparison compares with: a loose one takes `null` and `undefined` for one value. -/
def looseRight (h : Hierarchy) (op : EqOp) (right : Ty) : Ty :=
  if op.loose && isNullish right then h.union [.null, .undefined] else right

theorem run_splitEquality (op : EqOp) (prop : Option Text) (right current : Ty) :
    (splitEquality op prop right current : Ideal h Split).run =
      if op.negated then (comparisonSides h prop (looseRight h op right) current).swap
      else comparisonSides h prop (looseRight h op right) current := by
  cases prop <;> cases hl : op.loose && isNullish right <;> cases hn : op.negated <;>
    simp [splitEquality, comparisonSides, looseRight, hl, hn]

theorem splitEquality_covers (hc : Canonical current) (op : EqOp) (prop : Option Text) (right : Ty) :
    (splitEquality op prop right current : Ideal h Split).run.Covers current := by
  have hsides (right : Ty) : (comparisonSides h prop right current).Covers current := by
    cases prop with
    | some prop => exact splitDiscriminant_covers hc prop right
    | none =>
      exact ⟨Hierarchy.intersect_flat h _, without_flat hc.flat right,
        fun m hm => without_holds right hc hm⟩
  rw [run_splitEquality]
  split
  · exact (hsides _).swap
  · exact hsides _

/-! ## Predicates -/

theorem run_narrowTo (current target : Ty) :
    (narrowTo current target : Ideal h Ty).run =
      if (h.union (current.members.filter fun t => h.subtype t target)).isNever then
        h.meet current target
      else h.union (current.members.filter fun t => h.subtype t target) := by
  rw [narrowTo, Ideal.run_bind, Ideal.run_bind, Ideal.run_ite, Ideal.run_filterM]
  rfl

theorem splitPredicate_covers (hc : Canonical current) (preds : Predicates) (fn : String)
    (position : Int) : (splitPredicate preds fn position current : Ideal h Split).run.Covers current := by
  rw [splitPredicate]
  cases preds.find? fn with
  | none => exact .unchanged hc.flat _
  | some decl =>
    simp only [Ideal.run_ite]
    split
    · exact .unchanged hc.flat _
    · simp only [Ideal.run_bind, Ideal.run_filterM, Ideal.run_union, Ideal.run_pure,
        Ideal.run_subtype, run_narrowTo]
      refine ⟨?_, Hierarchy.union_flat h _, fun m hm => ?_⟩
      · split
        · exact Hierarchy.intersect_flat h _
        · exact Hierarchy.union_flat h _
      · have halt := hc.flat.alternative hm
        have hself : Alternative m m := .self halt.isUnion halt.isNever
        by_cases hsub : h.subtype m decl.narrows = true
        · have hwithin : (h.union (current.members.filter fun t => h.subtype t decl.narrows)).Holds m :=
            Hierarchy.holds_union_of_alternative (List.mem_filter.2 ⟨hm, hsub⟩) hself
          rw [if_neg (by simp [isNever_of_holds hwithin])]
          exact .inl hwithin
        · refine .inr (.inl (Hierarchy.holds_union_of_alternative (t := m) ?_ hself))
          exact List.mem_filter.2 ⟨hm, by simpa using hsub⟩

end Guard

theorem Graph.narrowed_of_ne_never {env : Env} {name : String} {t : Ty} (ht : t ≠ .never) :
    narrowed env name t = some (env.bind name t) := by
  cases t with
  | never => exact absurd rfl ht
  | _ => rfl

namespace Guard

variable {h : Hierarchy} {current : Ty}

/-! ## All guards -/

theorem split_covers (hc : Canonical current) (preds : Predicates)
    (env : Option (String → Option Ty)) (g : Guard)
    (ht : ∀ v, g = .truthy v →
      ∀ m ∈ current.members, m.truthiness.1 = true ∨ m.truthiness.2 = true) :
    (g.split preds env current : Ideal h Split).run.Covers current := by
  cases g with
  | typeOf v tag => exact splitTypeof_covers hc tag
  | truthy v => exact splitTruthy_covers hc (ht v rfl)
  | equality op left right =>
    rw [split]
    cases comparandType env right with
    | ok right => exact splitEquality_covers hc op left.prop right
    | error reason => exact .unchanged hc.flat reason
  | has prop v => exact splitHas_covers hc prop
  | instanceOf v tag => exact splitInstance_covers hc tag
  | discriminant v prop value => exact splitDiscriminant_covers hc prop value
  | predicate fn position v => exact splitPredicate_covers hc preds fn position

/-- A side that is not within the type gives way to the whole type. -/
theorem run_withinInput (current : Ty) (s : Split) :
    (withinInput current s : Ideal h Split).run.yes =
        (if h.subtype s.yes current then s.yes else current) ∧
      (withinInput current s : Ideal h Split).run.no =
        (if h.subtype s.no current then s.no else current) := by
  cases hy : h.subtype s.yes current <;> cases hn : h.subtype s.no current <;>
    simp [withinInput, hy, hn]

theorem narrow_within (preds : Predicates) (env : Option (String → Option Ty)) (g : Guard)
    (current : Ty) :
    h.subtype (g.narrow preds env current : Ideal h Split).run.yes current = true ∧
      h.subtype (g.narrow preds env current : Ideal h Split).run.no current = true := by
  have hrun := run_withinInput (h := h) current (g.split preds env current : Ideal h Split).run
  rw [narrow, Ideal.run_bind, hrun.1, hrun.2]
  constructor <;> split <;> simp [*]

theorem narrow_covers (hc : Canonical current) (preds : Predicates)
    (env : Option (String → Option Ty)) (g : Guard)
    (hs : (g.split preds env current : Ideal h Split).run.Covers current) :
    h.subtype current (h.union [(g.narrow preds env current : Ideal h Split).run.yes,
      (g.narrow preds env current : Ideal h Split).run.no]) = true := by
  have hrun := run_withinInput (h := h) current (g.split preds env current : Ideal h Split).run
  rw [narrow, Ideal.run_bind, hrun.1, hrun.2]
  split
  · split
    · exact hs.subtype hc
    · exact Hierarchy.subtype_union hc (by simp)
  · exact Hierarchy.subtype_union hc (by simp)

/-- Sides that cover a type are not both empty, unless the type is. -/
theorem side_ne_never {s : Split} (hc : current ≠ .never)
    (hs : h.subtype current (h.union [s.yes, s.no]) = true) : s.yes ≠ .never ∨ s.no ≠ .never := by
  refine Classical.or_iff_not_imp_left.2 fun hyes hno => hc ?_
  have hunion : h.union [.never, .never] = .never := rfl
  rw [Classical.not_not.1 hyes, hno, hunion] at hs
  exact h.subtype_never_iff.1 hs

/-- **Both sides of a guard stay within the type and together cover it.** A condition on the bare variable
covers types without type parameters. -/
theorem narrow_within_and_covers (hc : Canonical current) (preds : Predicates)
    (env : Option (String → Option Ty)) (g : Guard) :
    h.subtype (g.narrow preds env current : Ideal h Split).run.yes current = true ∧
      h.subtype (g.narrow preds env current : Ideal h Split).run.no current = true ∧
      ((∀ v, g = .truthy v → Signature.isClosed current = true) →
        h.subtype current (h.union [(g.narrow preds env current : Ideal h Split).run.yes,
          (g.narrow preds env current : Ideal h Split).run.no]) = true) := by
  obtain ⟨hyes, hno⟩ := narrow_within (h := h) preds env g current
  refine ⟨hyes, hno, fun hv => narrow_covers hc preds env g (split_covers hc preds env g fun v hg m hm => ?_)⟩
  exact truthiness_of_member hc (by simpa [Signature.isClosed] using hv v hg) hm

end Guard
end FlowTyping
