import FlowTyping.Proofs.Relation.Order

/-!
# What two types have in common

An intersection distributes over the unions among its arguments. So a single value that is an
alternative of two types is an alternative of their intersection, up to its key.

* **`Hierarchy.intersect_flat`** — intersections are flat.
* **`Hierarchy.holds_meet`** — a unit type that two types share is among the alternatives of their meet.
-/

namespace FlowTyping.Hierarchy

open Ty

variable {h : Hierarchy} {a b x y : Ty}

/-- Every intersection is flat, whatever its arguments are. -/
theorem intersect_flat (h : Hierarchy) (ts : List Ty) : (h.intersect ts).Flat := by
  have hmet (met : Ty) (hm : Rules.Met h.answers ts met) : met.Flat := by
    cases hm with
    | never _ _ => trivial
    | excluded _ _ _ => trivial
    | spread _ _ => exact union_flat h _
    | @settled flat members hp hu hs =>
      have hmembers : ∀ m ∈ members, m.isUnion = false ∧ m.isInter = false := by
        refine hs.forall (fun a b t ha hb hc => Rules.combine_plain ha hb hc) (fun x hx => ?_) rfl
        obtain ⟨t, ht, hconj⟩ := ((parted_of_conjunctsAll hp).2 x).1 (mem_of_mem_dedup hx)
        exact ⟨hu x hx, hconj.isInter⟩
      rcases Rules.interOf_cases h members with ⟨rfl, hrun⟩ | ⟨m, rfl, hrun⟩ | ⟨-, hrun⟩
      · rw [hrun]
        trivial
      · rw [hrun]
        have hm := hmembers m (by simp)
        cases m with
        | union us => simp [isUnion] at hm
        | _ => trivial
      · rw [hrun]
        trivial
  rw [intersect_knot]
  exact hmet _ (Rules.intersectStep_met _ ts)

/-- Distribution over the first union among the arguments. -/
theorem intersect_spread {ts flat us others : List Ty} (hf : conjunctsAll ts = some flat)
    (hu : firstUnion? (dedup flat) = some (us, others)) :
    h.intersect ts = h.union (us.map fun u => h.intersect (u :: others)) := by
  rw [intersect_knot, Rules.intersectStep, hf]
  simp only [hu, Ideal.run_bind, Ideal.run_mapM, Ideal.run_answers_intersect, Ideal.run_union]

/-- A single argument that needs no simplification is its own intersection. -/
theorem intersect_single {ts flat : List Ty} (hf : conjunctsAll ts = some flat)
    (hd : dedup flat = [x]) (hx : x.isUnion = false) : h.intersect ts = x := by
  have hnone : firstUnion? [x] = none := by
    cases x <;> first | rfl | simp [isUnion] at hx
  rw [intersect_knot, Rules.intersectStep, hf]
  simp [hd, hnone, Rules.fuseAll, Rules.fuseFirst, Rules.fuseWith, Rules.interOf]

theorem dedup_pair (a b : Ty) : dedup [a, b] = if a.key = b.key then [a] else [a, b] := by
  by_cases hk : a.key = b.key
  · simp [dedup, dedupKeyed, hk]
  · simp [dedup, dedupKeyed, hk, Ne.symm hk]

theorem conjunctsAll_pair (ha : conjuncts a = some [a]) (hb : conjuncts b = some [b]) :
    conjunctsAll [a, b] = some [a, b] := by
  simp [conjunctsAll, ha, hb]

theorem conjunctsAll_singleton (ha : conjuncts a = some [a]) : conjunctsAll [a] = some [a] := by
  simp [conjunctsAll, ha]

/-- Two arguments that combine into one type have it as their intersection. -/
theorem meet_into {t : Ty} (ha : conjuncts a = some [a]) (hb : conjuncts b = some [b])
    (hk : a.key ≠ b.key) (hua : a.isUnion = false) (hub : b.isUnion = false)
    (hc : (Rules.combine h.answers a b).run = .into t) : h.meet a b = t := by
  have hnone : firstUnion? [a, b] = none := by
    cases hf : firstUnion? [a, b] with
    | none => rfl
    | some found =>
      obtain ⟨us, others⟩ := found
      obtain ⟨before, after, heq, -⟩ := firstUnion?_some hf
      have hmem : Ty.union us = a ∨ Ty.union us = b := by
        simpa using (by rw [heq]; simp : Ty.union us ∈ [a, b])
      rcases hmem with rfl | rfl
      · simp [isUnion] at hua
      · simp [isUnion] at hub
  rw [meet, intersect_knot, Rules.intersectStep, conjunctsAll_pair ha hb]
  simp [dedup_pair, hk, hnone, Rules.fuseAll, Rules.fuseFirst, Rules.fuseWith, hc, Rules.interOf]

theorem conjuncts_of_unit (hx : x.isUnit = true) : conjuncts x = some [x] := by
  cases x <;> first | rfl | simp [isUnit] at hx

theorem isUnion_of_unit (hx : x.isUnit = true) : x.isUnion = false := by
  cases x <;> first | rfl | simp [isUnit] at hx

theorem isNever_of_unit (hx : x.isUnit = true) : x.isNever = false := by
  cases x <;> first | rfl | simp [isUnit] at hx

/-- What has the key of a unit type is a unit type. -/
theorem isUnit_of_key_eq (hx : x.isUnit = true) (hk : y.key = x.key) : y.isUnit = true := by
  cases x with
  | literal l =>
    obtain ⟨l', rfl, -⟩ := literal_of_key_eq hk
    rfl
  | null | undefined =>
    obtain rfl := eq_of_key_eq_atom (by simp [atoms]) hk
    rfl
  | _ => simp [isUnit] at hx

/-- What stands for a unit type is that type or an atom. -/
theorem standsFor_plain (hy : y.isUnit = true) (hx : StandsFor x y) :
    conjuncts x = some [x] ∧ x.isUnion = false ∧ x.isNever = false := by
  rcases hx with hk | ⟨l, rfl, rfl⟩
  · have hx := isUnit_of_key_eq hy hk
    exact ⟨conjuncts_of_unit hx, isUnion_of_unit hx, isNever_of_unit hx⟩
  · cases l <;> exact ⟨rfl, rfl, rfl⟩

theorem holds_of_standsFor (hy : y.isUnit = true) (hx : StandsFor x y) : x.Holds y := by
  have hplain := standsFor_plain hy hx
  refine .inr ⟨x, ?_, hx⟩
  rw [members_of_not_union hplain.2.1 hplain.2.2]
  simp

theorem base_key_ne (l : Literal) : l.base.key ≠ (Ty.literal l).key := by
  intro hk
  have := head_eq_of_key_eq hk
  cases l <;> simp [Literal.base, head] at this

/-- An atom is not below its literals. -/
theorem base_not_subtype (h : Hierarchy) (l : Literal) :
    h.subtype l.base (.literal l) = false := by
  rw [subtype_eq, decide_eq_false (base_key_ne l)]
  cases l <;> simp [Literal.base, Rules.subtypeRule, Rules.rightSubtype, Rules.plainSubtype]

/-- A unit type and what stands for it meet in the unit type, up to its key. -/
theorem standsFor_meet (hy : y.isUnit = true) (hx : StandsFor x y) :
    StandsFor (h.meet x y) y ∧ StandsFor (h.meet y x) y := by
  have hplain := standsFor_plain hy hx
  have hcx := hplain.1
  have hcy := conjuncts_of_unit hy
  rcases hx with hk | ⟨l, rfl, rfl⟩
  · have hxy : h.meet x y = x := intersect_single (conjunctsAll_pair hcx hcy)
      (by rw [dedup_pair, if_pos hk]) hplain.2.1
    have hyx : h.meet y x = y := intersect_single (conjunctsAll_pair hcy hcx)
      (by rw [dedup_pair, if_pos hk.symm]) (isUnion_of_unit hy)
    rw [hxy, hyx]
    exact ⟨.inl hk, .inl rfl⟩
  · -- the literal is below its atom, so it takes the place of both, whichever comes first
    have hk := base_key_ne l
    have hu := hplain.2.1
    have hxy : h.meet l.base (.literal l) = .literal l := meet_into hcx hcy hk hu rfl (by
      rw [Rules.run_combine]
      simp [h.base_not_subtype, h.literal_subtype_base])
    have hyx : h.meet (.literal l) l.base = .literal l := meet_into hcy hcx hk.symm rfl hu (by
      rw [Rules.run_combine]
      simp [h.literal_subtype_base])
    rw [hxy, hyx]
    exact ⟨.inl rfl, .inl rfl⟩

/-- A type that has another as a member is it or is a union. -/
theorem eq_or_union_of_mem (hm : x ∈ a.members) : a = x ∨ ∃ ms, a = .union ms ∧ x ∈ ms := by
  cases a with
  | never => simp [members] at hm
  | union ms => exact .inr ⟨ms, rfl, hm⟩
  | _ => exact .inl (List.mem_singleton.1 hm).symm

/-- A type that stands for a unit type meets a type that has the unit type. -/
theorem holds_meet_plain (hy : y.isUnit = true) (hx : StandsFor x y) (hyb : y ∈ b.members) :
    (h.meet x b).Holds y := by
  have hplain := standsFor_plain hy hx
  rcases eq_or_union_of_mem hyb with rfl | ⟨vs, rfl, hyb⟩
  · exact holds_of_standsFor hy (standsFor_meet hy hx).1
  · have hne : x.key ≠ (Ty.union vs).key := by
      intro hk
      have hu := hplain.2.1
      have := head_eq_of_key_eq hk
      cases x with
      | union us => simp [isUnion] at hu
      | literal l => cases l <;> simp [head] at this
      | _ => simp [head] at this
    have hfirst : firstUnion? [x, .union vs] = some (vs, [x]) := by
      have hu := hplain.2.1
      cases x <;> first | rfl | simp [isUnion] at hu
    rw [meet, intersect_spread (conjunctsAll_pair hplain.1 rfl)
      (by rw [dedup_pair, if_neg hne, hfirst])]
    exact holds_union (intersect_flat h [y, x]) (List.mem_map_of_mem hyb)
      (holds_of_standsFor hy (standsFor_meet hy hx).2)

/-- A unit type that two types share, one of them perhaps by its atom, is among the alternatives of
their meet. -/
theorem holds_meet (hy : y.isUnit = true) (hx : StandsFor x y) (hxa : x ∈ a.members)
    (hyb : y ∈ b.members) : (h.meet a b).Holds y := by
  have hplain := standsFor_plain hy hx
  rcases eq_or_union_of_mem hxa with rfl | ⟨us, rfl, hxa⟩
  · exact holds_meet_plain hy hx hyb
  · have hb : conjuncts b = some [b] := by
      rcases eq_or_union_of_mem hyb with rfl | ⟨vs, rfl, -⟩
      · exact conjuncts_of_unit hy
      · rfl
    by_cases hk : (Ty.union us).key = b.key
    · -- one key: the intersection distributes over the members of the first tree alone
      rw [meet, intersect_spread (conjunctsAll_pair (a := .union us) rfl hb)
        (by rw [dedup_pair, if_pos hk]; rfl)]
      refine holds_union (intersect_flat h [x]) (List.mem_map_of_mem hxa) ?_
      rw [intersect_single (conjunctsAll_singleton hplain.1) rfl hplain.2.1]
      exact holds_of_standsFor hy hx
    · rw [meet, intersect_spread (conjunctsAll_pair (a := .union us) rfl hb)
        (by rw [dedup_pair, if_neg hk]; rfl)]
      exact holds_union (intersect_flat h [x, b]) (List.mem_map_of_mem hxa)
        (holds_meet_plain hy hx hyb)

end FlowTyping.Hierarchy
