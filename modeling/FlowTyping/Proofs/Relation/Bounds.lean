import FlowTyping.Proofs.Relation.Fusion
import FlowTyping.Proofs.Ty.Measure

/-!
# Intersections and properties stay shallow

The intersection of types is made of pieces of them, so it goes no deeper than they do, and a property
of a type goes less deep than the type. This is why questions about types come to an end.

* **`Ty.Bounded n d`** — shallow for `n` and at most `d` deep.
* **`Rules.Tame`** — answers that keep these bounds: an intersection has those of its arguments, and a
  property has one layer less than the type it is of.
* **`Rules.upTo_tame`** — all answers of the program do.
-/

namespace FlowTyping

namespace Ty

/-- Shallow for `n` and at most `d` deep. -/
structure Bounded (n d : Nat) (t : Ty) : Prop where
  shallow : t.Shallow n
  depth_le : t.depth ≤ d

namespace Bounded

variable {n d e : Nat} {s t : Ty}

theorem mono (hde : d ≤ e) (ht : t.Bounded n d) : t.Bounded n e :=
  ⟨ht.shallow, Nat.le_trans ht.depth_le hde⟩

theorem part (ht : t.Bounded n d) (hs : s ∈ t.parts) : s.Bounded n (d - t.layer) := by
  refine ⟨ht.shallow.part hs, ?_⟩
  have := depth_part_le hs
  have := ht.depth_le
  omega

theorem layer_le (ht : t.Bounded n d) : t.layer ≤ d := by
  have := ht.depth_le
  rw [depth_eq] at this
  omega

/-- What opens nothing is bounded if its parts are, with room for its own layer. -/
theorem of_closed (ho : t.opens = false) (hd : t.layer ≤ d)
    (hp : ∀ s ∈ t.parts, s.Bounded n (d - t.layer)) : t.Bounded n d := by
  refine ⟨.of_closed ho fun s hs => (hp s hs).shallow, ?_⟩
  have := Ty.depth_le fun s hs => (hp s hs).depth_le
  omega

theorem union {ms : List Ty} (hms : ∀ m ∈ ms, m.Bounded n d ∧ m.isUnion = false) :
    (Ty.union ms).Bounded n d := by
  have hbounds (m) (hm : m ∈ ms) := (hms m hm).1.shallow.bounds_of_not_union (hms m hm).2
  refine ⟨.intro ⟨?_, ?_⟩ fun m hm => (hms m hm).1.shallow, ?_⟩
  · exact height_le_of_parts fun m hm => (hbounds m hm).1
  · have := greatest_le fun m hm => (hbounds m hm).2
    rw [spread_union]
    omega
  · have : (Ty.union ms).depth ≤ 0 + d := Ty.depth_le fun m hm =>
      (hms m hm).1.depth_le
    omega

theorem inter {ms : List Ty}
    (hms : ∀ m ∈ ms, m.Bounded n d ∧ m.isUnion = false ∧ m.isInter = false) :
    (Ty.inter ms).Bounded n d := by
  have hclosed : ∀ m ∈ ms, m.height ≤ n ∧ m.spread = 0 := by
    intro m hm
    obtain ⟨hb, hu, hi⟩ := hms m hm
    have hlow := hb.shallow.low
    cases m with
    | union us => simp [isUnion] at hu
    | inter us => simp [isInter] at hi
    | _ => exact ⟨hlow, by simp [spread]⟩
  have hspread : spreadAll ms = 0 := by
    simpa [spreadAll, List.sum_eq_zero_iff_forall_eq_nat] using fun m hm => (hclosed m hm).2
  refine ⟨.intro ⟨?_, ?_⟩ fun m hm => (hms m hm).1.shallow, ?_⟩
  · exact height_le_of_parts fun m hm => (hclosed m hm).1
  · rw [spread_inter]
    omega
  · have : (Ty.inter ms).depth ≤ 0 + d := Ty.depth_le fun m hm =>
      (hms m hm).1.depth_le
    omega

end Bounded
end Ty

theorem Hierarchy.union_bounded {h : Hierarchy} {n d : Nat} {ts : List Ty}
    (hts : ∀ t ∈ ts, t.Bounded n d) : (h.union ts).Bounded n d := by
  refine union_forall ?_ ?_ ?_ ?_ hts
  · exact .of_closed rfl (Nat.zero_le d) (by simp [Ty.parts])
  · exact .of_closed rfl (Nat.zero_le d) (by simp [Ty.parts])
  · exact fun ms hms m hm => hms.part hm
  · exact fun ms _ _ hms => .union fun m hm => ⟨(hms m hm).1, (Ty.isMember_iff.1 (hms m hm).2).1⟩

namespace TypeStore

theorem mem_of_mem_insertProp {p q : Property Ty} {ps : List (Property Ty)}
    (hq : q ∈ insertProp p ps) : q = p ∨ q ∈ ps := by
  induction ps with
  | nil => exact .inl (by simpa [insertProp] using hq)
  | cons s ps ih =>
    rw [insertProp] at hq
    split at hq
    · simpa using hq
    · split at hq
      · rcases List.mem_cons.1 hq with rfl | hq
        · exact .inl rfl
        · exact .inr (by simp [hq])
      · rcases List.mem_cons.1 hq with rfl | hq
        · exact .inr (by simp)
        · rcases ih hq with rfl | hq
          · exact .inl rfl
          · exact .inr (by simp [hq])

theorem mem_of_mem_sortProps {q : Property Ty} {ps : List (Property Ty)} (hq : q ∈ sortProps ps) :
    q ∈ ps := by
  have hfold (sorted : List (Property Ty)) :
      q ∈ ps.foldl (fun sorted p => insertProp p sorted) sorted → q ∈ ps ∨ q ∈ sorted := by
    clear hq
    induction ps generalizing sorted with
    | nil => exact .inr
    | cons p ps ih =>
      intro hq
      rw [List.foldl_cons] at hq
      rcases ih _ hq with hq | hq
      · exact .inl (by simp [hq])
      · rcases mem_of_mem_insertProp hq with rfl | hq
        · exact .inl (by simp)
        · exact .inr hq
  simpa using hfold [] hq

end TypeStore

namespace Ty

theorem findProp?_some {props : List (Property Ty)} {name : Text} {p : Property Ty}
    (hf : findProp? props name = some p) : p ∈ props ∧ p.name = name := by
  refine ⟨List.mem_of_find?_eq_some hf, ?_⟩
  simpa using List.find?_some hf

end Ty

namespace Rules

variable {h : Hierarchy} (r : Rules (Ideal h))

/-! ## What the loops over properties give -/

@[simp] theorem run_foundProps (name : Text) (ts : List Ty) :
    (foundProps r name ts).run = ts.filterMap fun t => (r.propertyOf t name).run := by
  induction ts with
  | nil => rfl
  | cons t ts ih =>
    rw [foundProps, Ideal.run_bind, List.filterMap_cons]
    cases (r.propertyOf t name).run with
    | none => exact ih
    | some p => simp [ih]

/-- Every member has a property, and these are they. -/
theorem sharedProps_some {name : Text} {ts : List Ty} {ps : List (Property Ty)} :
    (sharedProps r name ts).run = some ps ↔
      (ts.map fun t => (r.propertyOf t name).run) = ps.map some := by
  induction ts generalizing ps with
  | nil => cases ps <;> simp [sharedProps]
  | cons t ts ih =>
    rw [sharedProps, Ideal.run_bind, List.map_cons]
    cases hp : (r.propertyOf t name).run with
    | none => cases ps <;> simp
    | some p =>
      cases hrest : (sharedProps r name ts).run with
      | none =>
        cases ps with
        | nil => simp [hrest]
        | cons q qs =>
          have hne := mt (@ih qs).2 (by simp [hrest])
          simpa [hrest] using fun _ => hne
      | some rest =>
        have heq := (@ih rest).1 hrest
        cases ps with
        | nil => simp [hrest]
        | cons q qs =>
          rw [heq]
          simp [hrest, List.map_inj_right]

/-- What intersections inherit from both sides, the merged property inherits from all. -/
theorem meetProps_type {P : Ty → Prop}
    (hP : ∀ s t, P s → P t → P (r.intersect [s, t]).run) (merged : Property Ty)
    (ps : List (Property Ty)) (hm : P merged.type) (hps : ∀ p ∈ ps, P p.type) :
    P (meetProps r merged ps).run.type := by
  induction ps generalizing merged with
  | nil => exact hm
  | cons p ps ih =>
    rw [meetProps, Ideal.run_bind]
    refine ih _ ?_ fun q hq => hps q (by simp [hq])
    exact hP _ _ hm (hps p (by simp))

/-- A merged property comes from the left side alone, or meets the right side's of its name. -/
theorem mergedProps_some {propsA propsB ps : List (Property Ty)}
    (hs : (mergedProps r propsB propsA).run = some ps) {p : Property Ty} (hp : p ∈ ps) :
    p ∈ propsA ∨ ∃ pa ∈ propsA, ∃ pb ∈ propsB, p.type = (r.intersect [pa.type, pb.type]).run := by
  induction propsA generalizing ps with
  | nil =>
    obtain rfl : [] = ps := by simpa [mergedProps] using hs
    simp at hp
  | cons pa rest ih =>
    rw [mergedProps] at hs
    cases hfind : Ty.findProp? propsB pa.name with
    | none =>
      cases hrest : (mergedProps r propsB rest).run with
      | none => simp [hfind, hrest] at hs
      | some qs =>
        obtain rfl : pa :: qs = ps := by simpa [hfind, hrest] using hs
        rcases List.mem_cons.1 hp with rfl | hp
        · exact .inl (by simp)
        · rcases ih hrest hp with hp | ⟨qa, hqa, qb, hqb, heq⟩
          · exact .inl (by simp [hp])
          · exact .inr ⟨qa, by simp [hqa], qb, hqb, heq⟩
    | some pb =>
      cases hrest : (mergedProps r propsB rest).run with
      | none =>
        simp only [hfind, Ideal.run_bind, Ideal.run_ite, Ideal.run_pure, hrest] at hs
        split at hs <;> simp at hs
      | some qs =>
        simp only [hfind, Ideal.run_bind, Ideal.run_ite, Ideal.run_pure, hrest] at hs
        split at hs
        · simp at hs
        · obtain rfl := Option.some.inj hs
          rcases List.mem_cons.1 hp with rfl | hp
          · exact .inr ⟨pa, by simp, pb, (Ty.findProp?_some hfind).1, rfl⟩
          · rcases ih hrest hp with hp | ⟨qa, hqa, qb, hqb, heq⟩
            · exact .inl (by simp [hp])
            · exact .inr ⟨qa, by simp [hqa], qb, hqb, heq⟩

theorem run_combine (a b : Ty) :
    (combine r a b).run =
      if (r.subtype a b).run then .into a
      else if (r.subtype b a).run then .into b
      else if (r.disjoint a b).run then .empty
      else (mergeObjects r a b).run := by
  simp [combine]

/-- The tag of a merged shape is one of the two. -/
theorem eq_of_mergedTag {tagA tagB tag : String} (htag : mergedTag h tagA tagB = some tag) :
    tag = tagA ∨ tag = tagB := by
  unfold mergedTag at htag
  split at htag
  · exact .inl (Option.some.inj htag).symm
  split at htag
  · exact .inr (Option.some.inj htag).symm
  split at htag
  · exact .inl (Option.some.inj htag).symm
  split at htag
  · exact .inl (Option.some.inj htag).symm
  split at htag
  · exact .inr (Option.some.inj htag).symm
  · cases htag

/-- Only shapes merge: the tags agree, and so do the properties. -/
theorem mergeObjects_into {a b t : Ty} (hm : (mergeObjects r a b).run = .into t) :
    ∃ tagA propsA tagB propsB tag ps, a = .object tagA propsA ∧ b = .object tagB propsB ∧
      mergedTag h tagA tagB = some tag ∧ (mergedProps r propsB propsA).run = some ps ∧
      t = .object tag (TypeStore.sortProps
        (ps ++ propsB.filter fun pb => (Ty.findProp? propsA pb.name).isNone)) := by
  rw [mergeObjects.eq_def] at hm
  split at hm
  · rename_i tagA propsA tagB propsB
    rw [Ideal.run_bind, Ideal.run_hierarchy] at hm
    cases htag : mergedTag h tagA tagB with
    | none => simp [htag] at hm
    | some tag =>
      simp only [htag, Ideal.run_bind] at hm
      cases hps : (mergedProps r propsB propsA).run with
      | none => simp [hps] at hm
      | some ps =>
        refine ⟨tagA, propsA, tagB, propsB, tag, ps, rfl, rfl, htag, hps, ?_⟩
        simpa [hps] using hm.symm
  · simp at hm

/-- What two members combine into: one of them, or a shape that merges two shapes. -/
theorem combine_into {a b t : Ty} (hc : (combine r a b).run = .into t) :
    t = a ∨ t = b ∨ (mergeObjects r a b).run = .into t := by
  rw [run_combine] at hc
  split at hc
  · exact .inl (by simpa using hc.symm)
  · split at hc
    · exact .inr (.inl (by simpa using hc.symm))
    · split at hc
      · simp at hc
      · exact .inr (.inr hc)

/-! ## Answers that keep the bounds -/

/-- Answers within the bounds of what is asked about. -/
structure Tame (n : Nat) : Prop where
  intersect : ∀ {d : Nat} {ts : List Ty}, (∀ t ∈ ts, t.Bounded n d) →
    (r.intersect ts).run.Bounded n d
  property : ∀ {d : Nat} {t : Ty} {name : Text} {p : Property Ty}, t.Bounded n d →
    (r.propertyOf t name).run = some p → p.type.Bounded n (d - 1)

variable {r} {n : Nat}

theorem Tame.meetProps (hr : Tame r n) {d : Nat} (merged : Property Ty) (ps : List (Property Ty))
    (hm : merged.type.Bounded n d) (hps : ∀ p ∈ ps, p.type.Bounded n d) :
    (meetProps r merged ps).run.type.Bounded n d :=
  meetProps_type r (fun s t hs ht => hr.intersect (by simp [hs, ht])) merged ps hm hps

/-- Shapes merge within the bounds of both. -/
theorem Tame.combine (hr : Tame r n) {d : Nat} {a b t : Ty} (ha : a.Bounded n d)
    (hb : b.Bounded n d) (hc : (combine r a b).run = .into t) : t.Bounded n d := by
  rcases combine_into r hc with rfl | rfl | hm
  · exact ha
  · exact hb
  · obtain ⟨tagA, propsA, tagB, propsB, tag, ps, rfl, rfl, -, hps, rfl⟩ := mergeObjects_into r hm
    have hpropA (p) (hp : p ∈ propsA) : p.type.Bounded n (d - 1) :=
      ha.part (List.mem_map_of_mem hp)
    have hpropB (p) (hp : p ∈ propsB) : p.type.Bounded n (d - 1) :=
      hb.part (List.mem_map_of_mem hp)
    refine .of_closed rfl ha.layer_le fun s hs => ?_
    obtain ⟨p, hp, rfl⟩ := List.mem_map.1 hs
    rcases List.mem_append.1 (TypeStore.mem_of_mem_sortProps hp) with hp | hp
    · rcases mergedProps_some r hps hp with hp | ⟨pa, hpa, pb, hpb, heq⟩
      · exact hpropA p hp
      · rw [heq]
        exact hr.intersect (by simpa using ⟨hpropA pa hpa, hpropB pb hpb⟩)
    · exact hpropB p (List.mem_filter.1 hp).1

/-- Members of an intersection never include a union or another intersection, whatever they combine
into. -/
theorem combine_plain {a b t : Ty} (ha : a.isUnion = false ∧ a.isInter = false)
    (hb : b.isUnion = false ∧ b.isInter = false) (hc : (combine r a b).run = .into t) :
    t.isUnion = false ∧ t.isInter = false := by
  rcases combine_into r hc with rfl | rfl | hm
  · exact ha
  · exact hb
  · obtain ⟨tagA, propsA, tagB, propsB, tag, ps, -, -, -, -, rfl⟩ := mergeObjects_into r hm
    exact ⟨rfl, rfl⟩

/-- The members that an intersection starts from are pieces of its arguments. -/
theorem bounded_of_parted {d : Nat} {ts flat : List Ty} (hts : ∀ t ∈ ts, t.Bounded n d)
    (hp : Ty.conjunctsAll ts = some flat) {x : Ty} (hx : x ∈ Ty.dedup flat) :
    x.Bounded n d ∧ x.isInter = false := by
  have hparted := Ty.parted_of_conjunctsAll hp
  obtain ⟨t, ht, hconj⟩ := (hparted.2 x).1 (Ty.mem_of_mem_dedup hx)
  exact ⟨hconj.of_inter_closed (fun ms hms m hm => hms.part hm) (hts t ht), hconj.isInter⟩

theorem Tame.met (hr : Tame r n) {d : Nat} {ts : List Ty} {met : Ty} (hts : ∀ t ∈ ts, t.Bounded n d)
    (hmet : Met r ts met) : met.Bounded n d := by
  cases hmet with
  | never _ _ => exact .of_closed rfl (Nat.zero_le d) (by simp [Ty.parts])
  | excluded _ _ _ => exact .of_closed rfl (Nat.zero_le d) (by simp [Ty.parts])
  | @spread flat us before after hp hflat =>
    have hmem (x) (hx : x ∈ Ty.dedup flat) := (bounded_of_parted hts hp hx).1
    rw [hflat] at hmem
    have hunion : (Ty.union us).Bounded n d := hmem _ (by simp)
    refine Hierarchy.union_bounded fun t ht => ?_
    obtain ⟨u, hu, rfl⟩ := List.mem_map.1 ht
    refine hr.intersect fun t ht => ?_
    rcases List.mem_cons.1 ht with rfl | ht
    · exact hunion.part hu
    · rcases List.mem_append.1 ht with ht | ht
      · exact hmem t (by simp [ht])
      · exact hmem t (by simp [ht])
  | @settled flat members hp hu hs =>
    have hmembers : ∀ m ∈ members, m.Bounded n d ∧ m.isUnion = false ∧ m.isInter = false := by
      refine hs.forall (fun a b t ha hb hc => ?_) (fun x hx => ?_) rfl
      · exact ⟨hr.combine ha.1 hb.1 hc, combine_plain ha.2 hb.2 hc⟩
      · have hx' := bounded_of_parted hts hp hx
        exact ⟨hx'.1, hu x hx, hx'.2⟩
    rcases interOf_cases h members with ⟨rfl, hrun⟩ | ⟨m, rfl, hrun⟩ | ⟨-, hrun⟩
    · rw [hrun]
      exact .of_closed rfl (Nat.zero_le d) (by simp [Ty.parts])
    · rw [hrun]
      exact (hmembers m (by simp)).1
    · rw [hrun]
      exact .inter fun m hm => hmembers m (Ty.mem_sortByKey.1 hm)

theorem Tame.propertyStep (hr : Tame r n) {d : Nat} {t : Ty} {name : Text} {p : Property Ty}
    (ht : t.Bounded n d) (hp : (propertyStep r t name).run = some p) :
    p.type.Bounded n (d - 1) := by
  cases t with
  | object tag props =>
    have hfind : Ty.findProp? props name = some p := by simpa [Rules.propertyStep] using hp
    exact ht.part (List.mem_map_of_mem (Ty.findProp?_some hfind).1)
  | tuple elems rest | string =>
    obtain ⟨-, rfl⟩ : name = lengthName ∧ _ = p := by simpa [Rules.propertyStep] using hp
    exact .of_closed rfl (Nat.zero_le _) (by simp [Ty.parts])
  | literal l =>
    cases l with
    | text value =>
      obtain ⟨-, rfl⟩ : name = lengthName ∧ _ = p := by simpa [Rules.propertyStep] using hp
      exact .of_closed rfl (Nat.zero_le _) (by simp [Ty.parts])
    | _ => simp [Rules.propertyStep] at hp
  | var v bound =>
    cases bound with
    | none => simp [Rules.propertyStep] at hp
    | some bound =>
      have hbound : bound.Bounded n (d - 1) := ht.part (by simp [Ty.parts])
      -- the property of a parameter is that of its bound
      exact (hr.property hbound (by simpa [Rules.propertyStep] using hp)).mono (by omega)
  | inter ms =>
    have hfound : ∀ q ∈ ms.filterMap fun t => (r.propertyOf t name).run,
        q.type.Bounded n (d - 1) := by
      intro q hq
      obtain ⟨m, hm, hq⟩ := List.mem_filterMap.1 hq
      exact hr.property (ht.part hm) hq
    simp only [Rules.propertyStep, Ideal.run_bind, run_foundProps] at hp
    cases hlist : ms.filterMap fun t => (r.propertyOf t name).run with
    | nil => simp [hlist] at hp
    | cons q qs =>
      rw [hlist] at hp hfound
      obtain rfl : (Rules.meetProps r q qs).run = p := by simpa using hp
      exact hr.meetProps q qs (hfound q (by simp)) fun p hp => hfound p (by simp [hp])
  | union ms =>
    simp only [Rules.propertyStep, Ideal.run_bind] at hp
    cases hshared : (sharedProps r name ms).run with
    | none => simp [hshared] at hp
    | some ps =>
      obtain rfl : _ = p := by simpa [hshared] using hp
      refine Hierarchy.union_bounded fun s hs => ?_
      obtain ⟨q, hq, rfl⟩ := List.mem_map.1 hs
      have hmem : some q ∈ ms.map fun t => (r.propertyOf t name).run := by
        rw [(sharedProps_some r).1 hshared]
        exact List.mem_map_of_mem hq
      obtain ⟨m, hm, hq⟩ := List.mem_map.1 hmem
      exact hr.property (ht.part hm) hq
  | _ => simp [Rules.propertyStep] at hp

/-- All answers keep the bounds, since every step makes them from answers with fewer steps. -/
theorem upTo_tame (h : Hierarchy) (n k : Nat) : Tame (upTo k : Rules (Ideal h)) n := by
  induction k with
  | zero =>
    refine ⟨fun _ => ?_, fun _ hp => by simp [upTo] at hp⟩
    exact .of_closed rfl (Nat.zero_le _) (by simp [upTo, Ty.parts])
  | succ k ih =>
    exact ⟨fun hts => ih.met hts (intersectStep_met _ _), fun ht hp => ih.propertyStep ht hp⟩

end Rules
end FlowTyping
