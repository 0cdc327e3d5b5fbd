import FlowTyping.Proofs.Flow.History
import FlowTyping.Proofs.Relation.Record

/-!
# Intersections of record data are greatest lower bounds

An intersection is computed: unions are distributed over, one member is dropped beside another that is below
it, disjoint members leave nothing, and shapes are merged property by property. Of record data all this comes
to the greatest type that is below the arguments.

* **`Hierarchy.Greatest`** — a single alternative is below the type exactly if it is below each of some types;
  `Greatest.subtype_iff` says so of every type.
* **`Hierarchy.combines_combine`** — two alternatives never stay side by side, and what they combine into is the
  greatest type below both. Shapes go property by property (`combines_mergeObjects`).
* **`Hierarchy.greatest_spread`** — distribution over a union.
* **`Hierarchy.intersect_greatest`** — intersections, and **`Universe.History.subtype_meet_iff`**, what a universe
  answers.
-/

namespace FlowTyping

open Ty

/-! ## Properties of a merged shape -/

namespace TypeStore

variable {p q : Property Ty} {ps : List (Property Ty)}

theorem mem_insertProp_self (p : Property Ty) (ps : List (Property Ty)) : p ∈ insertProp p ps := by
  induction ps with
  | nil => simp [insertProp]
  | cons r ps ih =>
    rw [insertProp]
    split
    · simp
    · split
      · simp
      · exact List.mem_cons_of_mem _ ih

theorem mem_insertProp_of_mem (hq : q ∈ ps) (hne : q.name ≠ p.name) : q ∈ insertProp p ps := by
  induction ps with
  | nil => simp at hq
  | cons r ps ih =>
    rw [insertProp]
    split
    · exact List.mem_cons_of_mem _ hq
    · rcases List.mem_cons.1 hq with rfl | hq
      · rw [if_neg (by simpa using hne.symm)]
        simp
      · split
        · exact List.mem_cons_of_mem _ hq
        · exact List.mem_cons_of_mem _ (ih hq)

theorem mem_foldl_insertProp {sorted : List (Property Ty)} (hps : (ps.map (·.name)).Nodup)
    (hq : q ∈ ps ∨ q ∈ sorted ∧ ∀ p ∈ ps, q.name ≠ p.name) :
    q ∈ ps.foldl (fun sorted p => insertProp p sorted) sorted := by
  induction ps generalizing sorted with
  | nil => simpa using hq
  | cons p ps ih =>
    obtain ⟨hp, hps⟩ := List.nodup_cons.1 hps
    rw [List.foldl_cons]
    refine ih hps ?_
    rcases hq with hq | ⟨hq, hne⟩
    · rcases List.mem_cons.1 hq with rfl | hq
      · refine .inr ⟨mem_insertProp_self q sorted, fun r hr heq => hp ?_⟩
        exact List.mem_map.2 ⟨r, hr, heq.symm⟩
      · exact .inl hq
    · exact .inr ⟨mem_insertProp_of_mem hq (hne p (by simp)), fun r hr => hne r (by simp [hr])⟩

/-- Sorting properties of distinct names loses none of them. -/
theorem mem_sortProps_iff (hps : (ps.map (·.name)).Nodup) : q ∈ sortProps ps ↔ q ∈ ps :=
  ⟨mem_of_mem_sortProps, fun hq => mem_foldl_insertProp hps (.inl hq)⟩

end TypeStore

namespace Hierarchy

variable {h : Hierarchy} {a b t x : Ty} {propsA propsB : List (Property Ty)} {pa q : Property Ty}

/-- The property of a merged shape that comes from one of its left side. -/
def mergedProp (h : Hierarchy) (propsB : List (Property Ty)) (pa : Property Ty) : Property Ty :=
  match findProp? propsB pa.name with
  | none => pa
  | some pb =>
    { name := pa.name
      type := h.intersect [pa.type, pb.type]
      optional := pa.optional && pb.optional
      readonly := pa.readonly && pb.readonly }

@[simp] theorem mergedProp_name : (h.mergedProp propsB pa).name = pa.name := by
  rw [mergedProp]
  split <;> rfl

/-- Whether no value is left for a property that one of two shapes requires. -/
def emptied (h : Hierarchy) (propsB : List (Property Ty)) (pa : Property Ty) : Bool :=
  match findProp? propsB pa.name with
  | none => false
  | some pb => (h.intersect [pa.type, pb.type]).isNever && !(pa.optional && pb.optional)

theorem run_mergedProps : (Rules.mergedProps h.answers propsB propsA).run =
    if propsA.any (h.emptied propsB) then none else some (propsA.map (h.mergedProp propsB)) := by
  induction propsA with
  | nil => rfl
  | cons pa rest ih =>
    rw [Rules.mergedProps, List.any_cons, List.map_cons]
    cases hfind : findProp? propsB pa.name with
    | none =>
      have hkept : h.emptied propsB pa = false ∧ h.mergedProp propsB pa = pa := by
        simp [emptied, mergedProp, hfind]
      cases hrest : rest.any (h.emptied propsB) <;> simp [ih, hrest, hkept]
    | some pb =>
      have hempty : h.emptied propsB pa =
          ((h.intersect [pa.type, pb.type]).isNever && !(pa.optional && pb.optional)) := by
        simp [emptied, hfind]
      rw [mergedProp, hempty]
      simp only [hfind, Ideal.run_bind, Ideal.run_ite, Ideal.run_pure, ih]
      rw [Ideal.run_answers_intersect]
      split
      · rename_i hnone
        rw [hnone]
        rfl
      · rename_i hsome
        rw [Bool.not_eq_true] at hsome
        rw [hsome, Bool.false_or]
        cases hrest : rest.any (h.emptied propsB) <;> simp

/-- Plain shapes merge, unless no value is left for a property. -/
theorem run_mergeObjects : (Rules.mergeObjects h.answers (.object "" propsA) (.object "" propsB)).run =
    if propsA.any (h.emptied propsB) then .empty
    else .into (.object "" (TypeStore.sortProps (propsA.map (h.mergedProp propsB) ++
      propsB.filter fun pb => (findProp? propsA pb.name).isNone))) := by
  rw [Rules.mergeObjects]
  simp only [Ideal.run_bind, Rules.mergedTag, beq_self_eq_true, if_true, run_mergedProps]
  cases hany : propsA.any (h.emptied propsB) <;> simp

/-! ## Greatest lower bounds -/

/-- A single alternative is below the type exactly if it is below each of some types. -/
structure Greatest (h : Hierarchy) (ts : List Ty) (t : Ty) : Prop where
  extended : Extended t
  point_iff : ∀ {x : Ty}, Point x → (h.subtype x t = true ↔ ∀ s ∈ ts, h.subtype x s = true)

namespace Greatest

variable {ts : List Ty} {c : Ty}

/-- So is every type. -/
theorem subtype_iff (hg : h.Greatest ts t) (hts : ∀ s ∈ ts, Extended s) (hc : Extended c) :
    h.subtype c t = true ↔ ∀ s ∈ ts, h.subtype c s = true := by
  rw [extended_subtype_iff hc hg.extended]
  constructor
  · intro hall s hs
    rw [extended_subtype_iff hc (hts s hs)]
    exact fun x hx => (hg.point_iff (hc.point hx)).1 (hall x hx) s hs
  · intro hall x hx
    refine (hg.point_iff (hc.point hx)).2 fun s hs => ?_
    exact (extended_subtype_iff hc (hts s hs)).1 (hall s hs) x hx

/-- Of record data the greatest lower bound is no `unknown`. -/
theorem ne_unknown (hg : h.Greatest [a, b] t) (ha : Tidy a) : t ≠ .unknown := by
  rintro rfl
  have hs := (hg.point_iff ⟨.inr (.inr rfl), rfl, rfl⟩).1 (h.subtype_self _) a (by simp)
  exact ha.ne_unknown (eq_unknown_of_subtype hs)

end Greatest

/-! ## Combining two alternatives -/

/-- What two alternatives come to is right: a type that is below the same as both, or nothing where nothing
is below both. They never stay side by side. -/
def Combines (h : Hierarchy) (a b : Ty) : Fusion → Prop
  | .apart => False
  | .empty => ∀ x, Point x → h.subtype x a = true → h.subtype x b = true → False
  | .into t => Tidy t ∧ t.isUnion = false ∧
    ∀ x, Point x → (h.subtype x t = true ↔ h.subtype x a = true ∧ h.subtype x b = true)

section Merge

variable (ha : Tidy (.object "" propsA)) (hb : Tidy (.object "" propsB))
  (hmeet : ∀ pa ∈ propsA, ∀ pb ∈ propsB, h.Greatest [pa.type, pb.type] (h.intersect [pa.type, pb.type]))

include ha hb in
/-- The properties of a merged shape: those that one side has, and the shared ones. -/
theorem mem_merged_iff : q ∈ TypeStore.sortProps (propsA.map (h.mergedProp propsB) ++
      propsB.filter fun pb => (findProp? propsA pb.name).isNone) ↔
    (∃ pa ∈ propsA, q = h.mergedProp propsB pa) ∨ q ∈ propsB ∧ ∀ pa ∈ propsA, pa.name ≠ q.name := by
  have hnames {props : List (Property Ty)} (hp : Tidy (.object "" props)) :
      (props.map (·.name)).Nodup := by
    rw [List.Nodup, List.pairwise_map]
    have hsorted : props.Pairwise fun p q => p.name < q.name := hp.own.2.2
    refine hsorted.imp fun {p q} hlt heq => ?_
    rw [heq] at hlt
    exact Text.lt_irrefl _ hlt
  have hnone {name : Text} : (findProp? propsA name).isNone = true ↔ ∀ pa ∈ propsA, pa.name ≠ name := by
    simp [findProp?, List.find?_eq_none]
  rw [TypeStore.mem_sortProps_iff]
  · simp only [List.mem_append, List.mem_map, List.mem_filter, hnone]
    exact or_congr_left (exists_congr fun pa => and_congr_right fun _ => eq_comm)
  · rw [List.map_append, List.map_map, List.nodup_append]
    have hmap : propsA.map ((·.name) ∘ h.mergedProp propsB) = propsA.map (·.name) :=
      List.map_congr_left fun pa _ => mergedProp_name
    rw [hmap]
    refine ⟨hnames ha, (hnames hb).sublist (List.filter_sublist.map _), ?_⟩
    simp only [List.mem_map, List.mem_filter, hnone]
    rintro _ ⟨pa, hpa, rfl⟩ _ ⟨pb, ⟨-, hpb⟩, rfl⟩ heq
    exact hpb pa hpa heq

include ha hb hmeet in
/-- Where a value is left for each property, the merged shape is record data. -/
theorem merged_tidy (hsome : propsA.any (h.emptied propsB) = false) :
    Tidy (.object "" (TypeStore.sortProps (propsA.map (h.mergedProp propsB) ++
      propsB.filter fun pb => (findProp? propsA pb.name).isNone))) := by
  have hprop (q) (hq : (∃ pa ∈ propsA, q = h.mergedProp propsB pa) ∨ q ∈ propsB) :
      q.optional = false ∧ q.name ≠ Rules.lengthName ∧ Text.IsWord q.name ∧ Tidy q.type := by
    have hown {props : List (Property Ty)} (ht : Tidy (.object "" props)) {p} (hp : p ∈ props) :
        p.optional = false ∧ p.name ≠ Rules.lengthName ∧ Text.IsWord p.name ∧ Tidy p.type :=
      ⟨(ht.own.1.2 p hp).1, (ht.own.1.2 p hp).2, ht.own.2.1.2 p hp, ht.part (List.mem_map_of_mem hp)⟩
    rcases hq with ⟨pa, hpa, rfl⟩ | hq
    · obtain ⟨ho, hname, hword, htidy⟩ := hown ha hpa
      rw [mergedProp_name, mergedProp]
      cases hfind : findProp? propsB pa.name with
      | none => exact ⟨ho, hname, hword, htidy⟩
      | some pb =>
        have hg := hmeet pa hpa pb (findProp?_some hfind).1
        refine ⟨by simp [ho], hname, hword, ?_⟩
        rcases hg.extended with ht | ht | ht
        · exact ht
        · have hempty := List.any_eq_false.1 hsome pa hpa
          simp [emptied, hfind, ht, ho, isNever] at hempty
        · exact absurd ht (hg.ne_unknown htidy)
    · exact hown hb hq
  have hmem {q : Property Ty} (hq : q ∈ TypeStore.sortProps (propsA.map (h.mergedProp propsB) ++
      propsB.filter fun pb => (findProp? propsA pb.name).isNone)) :
      (∃ pa ∈ propsA, q = h.mergedProp propsB pa) ∨ q ∈ propsB :=
    ((mem_merged_iff ha hb).1 hq).imp id And.left
  refine .intro ⟨rfl, fun q hq => ?_⟩ ⟨ha.own.2.1.1, fun q hq => ?_⟩ (TypeStore.sortProps_increasing _)
    fun s hs => ?_
  · exact ⟨(hprop q (hmem hq)).1, (hprop q (hmem hq)).2.1⟩
  · exact (hprop q (hmem hq)).2.2.1
  · obtain ⟨q, hq, rfl⟩ := List.mem_map.1 hs
    exact (hprop q (hmem hq)).2.2.2

include ha hb hmeet in
/-- A property is below the merged one exactly if it is below both. -/
theorem propertyOf_meet_iff (hx : Point x) (htidy : Tidy x) {pb : Property Ty} (hpa : pa ∈ propsA)
    (hpb : pb ∈ propsB) (hq : h.propertyOf x pa.name = some q) :
    h.subtype q.type (h.intersect [pa.type, pb.type]) = true ↔
      h.subtype q.type pa.type = true ∧ h.subtype q.type pb.type = true := by
  have hparts : ∀ s ∈ [pa.type, pb.type], Extended s := by
    have hta : Tidy pa.type := ha.part (List.mem_map_of_mem hpa)
    have htb : Tidy pb.type := hb.part (List.mem_map_of_mem hpb)
    simpa using ⟨Or.inl hta, Or.inl htb⟩
  have htype := (tidy_of_propertyOf hx htidy (ha.own.1.2 pa hpa).2 hq).1
  simpa using (hmeet pa hpa pb hpb).subtype_iff hparts (.inl htype)

include ha hb hmeet in
/-- A shared property is there as merged exactly if it is there as each of the two. -/
theorem hasProp_merged_iff (hx : Point x) (htidy : Tidy x) {pb : Property Ty} (hpa : pa ∈ propsA)
    (hfind : findProp? propsB pa.name = some pb) :
    h.HasProp x (h.mergedProp propsB pa) ↔ h.HasProp x pa ∧ h.HasProp x pb := by
  obtain ⟨hpb, hname⟩ := findProp?_some hfind
  have htype {q : Property Ty} (hq : h.propertyOf x pa.name = some q) :=
    propertyOf_meet_iff ha hb hmeet hx htidy hpa hpb hq
  have hmerged : h.mergedProp propsB pa =
      { name := pa.name
        type := h.intersect [pa.type, pb.type]
        optional := pa.optional && pb.optional
        readonly := pa.readonly && pb.readonly } := by
    simp [mergedProp, hfind]
  rw [hmerged, HasProp, HasProp, HasProp, hname]
  constructor
  · rintro ⟨q, hq, hr, hs⟩
    simp only [Bool.and_eq_true] at hr
    exact ⟨⟨q, hq, fun hq => (hr hq).1, ((htype hq).1 hs).1⟩, q, hq, fun hq => (hr hq).2, ((htype hq).1 hs).2⟩
  · rintro ⟨⟨q, hq, hra, hsa⟩, q', hq', hrb, hsb⟩
    obtain rfl : q = q' := by simpa [hq] using hq'
    exact ⟨q, hq, by simpa using fun hr => ⟨hra hr, hrb hr⟩, (htype hq).2 ⟨hsa, hsb⟩⟩

include ha hb hmeet in
/-- What fits both shapes fits the merged one. -/
theorem fitsShape_merged_iff (hx : Point x) (htidy : Tidy x) :
    h.FitsShape x "" (TypeStore.sortProps (propsA.map (h.mergedProp propsB) ++
      propsB.filter fun pb => (findProp? propsA pb.name).isNone)) ↔
    h.FitsShape x "" propsA ∧ h.FitsShape x "" propsB := by
  have hshared {pa pb : Property Ty} (hpb : pb ∈ propsB) (hname : pb.name = pa.name) :
      findProp? propsB pa.name = some pb :=
    (findProp?_eq_some_iff hb.own.2.2).2 ⟨hpb, hname⟩
  constructor
  · rintro ⟨-, hf⟩
    refine ⟨⟨.inl rfl, fun pa hpa => ?_⟩, .inl rfl, fun pb hpb => ?_⟩
    · have hq : h.HasProp x (h.mergedProp propsB pa) :=
        hf _ ((mem_merged_iff ha hb).2 (.inl ⟨pa, hpa, rfl⟩))
      cases hfind : findProp? propsB pa.name with
      | none => rwa [mergedProp, hfind] at hq
      | some pb => exact ((hasProp_merged_iff ha hb hmeet hx htidy hpa hfind).1 hq).1
    · by_cases hnew : ∀ pa ∈ propsA, pa.name ≠ pb.name
      · exact hf pb ((mem_merged_iff ha hb).2 (.inr ⟨hpb, hnew⟩))
      · obtain ⟨pa, hpa, hname⟩ : ∃ pa ∈ propsA, pa.name = pb.name := by simpa using hnew
        have hq : h.HasProp x (h.mergedProp propsB pa) :=
          hf _ ((mem_merged_iff ha hb).2 (.inl ⟨pa, hpa, rfl⟩))
        exact ((hasProp_merged_iff ha hb hmeet hx htidy hpa (hshared hpb hname.symm)).1 hq).2
  · rintro ⟨hfa, hfb⟩
    refine ⟨.inl rfl, fun q hq => ?_⟩
    rcases (mem_merged_iff ha hb).1 hq with ⟨pa, hpa, rfl⟩ | ⟨hq, -⟩
    · have hpa' : h.HasProp x pa := hfa.props pa hpa
      cases hfind : findProp? propsB pa.name with
      | none => rwa [← show h.mergedProp propsB pa = pa by simp [mergedProp, hfind]] at hpa'
      | some pb =>
        have hpb : h.HasProp x pb := hfb.props pb (findProp?_some hfind).1
        exact (hasProp_merged_iff ha hb hmeet hx htidy hpa hfind).2 ⟨hpa', hpb⟩
    · exact hfb.props q hq

include ha hb hmeet in
/-- Two shapes merge into what is below both, or nothing is. -/
theorem combines_mergeObjects :
    h.Combines (.object "" propsA) (.object "" propsB)
      (Rules.mergeObjects h.answers (.object "" propsA) (.object "" propsB)).run := by
  rw [run_mergeObjects]
  cases hany : propsA.any (h.emptied propsB) with
  | true =>
    intro x hx hxa hxb
    obtain ⟨pa, hpa, hempty⟩ := List.any_eq_true.1 hany
    rw [emptied] at hempty
    split at hempty
    · simp at hempty
    · rename_i pb hfind
      obtain ⟨hpb, hname⟩ := findProp?_some hfind
      obtain ⟨htidy, -, hfa⟩ := fitsShape_of_subtype hx ha hxa
      obtain ⟨-, -, hfb⟩ := fitsShape_of_subtype hx hb hxb
      obtain ⟨q, hq, -, hqa⟩ := hfa.props pa hpa
      obtain ⟨q', hq', -, hqb⟩ := hfb.props pb hpb
      obtain rfl : q = q' := by simpa [hname, hq] using hq'
      -- the property would be below what is left of both, which is `never`
      have hmet := (propertyOf_meet_iff ha hb hmeet hx htidy hpa hpb hq).2 ⟨hqa, hqb⟩
      have hnever : h.intersect [pa.type, pb.type] = .never := by
        generalize h.intersect [pa.type, pb.type] = met at hempty
        cases met <;> first | rfl | simp [isNever] at hempty
      rw [hnever, subtype_never_iff] at hmet
      exact (tidy_of_propertyOf hx htidy (ha.own.1.2 pa hpa).2 hq).1.ne_never hmet
  | false =>
    have hmerged := merged_tidy ha hb hmeet hany
    refine ⟨hmerged, rfl, fun x hx => ⟨fun hs => ?_, fun ⟨hxa, hxb⟩ => ?_⟩⟩
    · obtain ⟨htidy, houtline, hf⟩ := fitsShape_of_subtype hx hmerged hs
      obtain ⟨hfa, hfb⟩ := (fitsShape_merged_iff ha hb hmeet hx htidy).1 hf
      exact ⟨subtype_of_below htidy.data ha.data (.shape houtline hfa),
        subtype_of_below htidy.data hb.data (.shape houtline hfb)⟩
    · obtain ⟨htidy, houtline, hfa⟩ := fitsShape_of_subtype hx ha hxa
      obtain ⟨-, -, hfb⟩ := fitsShape_of_subtype hx hb hxb
      exact subtype_of_below htidy.data hmerged.data
        (.shape houtline ((fitsShape_merged_iff ha hb hmeet hx htidy).2 ⟨hfa, hfb⟩))

end Merge

/-- An alternative that is no shape is an atom, or a literal of one, and has the sort of that atom. -/
theorem exists_atom_of_sort (ha : Tidy a) (hu : a.isUnion = false) (ho : a.isObject = false) :
    ∃ w, (a = w ∨ ∃ l, a = .literal l ∧ w = l.base) ∧ w.sort? = a.sort? ∧
      w ∈ [Ty.null, .undefined, .boolean, .number, .string] := by
  have hown := ha.own.1
  cases a with
  | union _ => simp [isUnion] at hu
  | object _ _ => simp [isObject] at ho
  | literal l => exact ⟨l.base, .inr ⟨l, rfl, rfl⟩, by cases l <;> rfl, by cases l <;> simp [Literal.base]⟩
  | null | undefined | boolean | number | string => exact ⟨_, .inl rfl, rfl, by simp⟩
  | _ => exact hown.elim

/-- Two alternatives of one sort that are no shapes are one below the other, or are different literals. -/
theorem literals_of_sort (ha : Tidy a) (hb : Tidy b) (hua : a.isUnion = false) (hub : b.isUnion = false)
    (hoa : a.isObject = false) (hob : b.isObject = false) (hsort : a.differInSort b = false)
    (hab : h.subtype a b = false) (hba : h.subtype b a = false) :
    a.isLiteral = true ∧ b.isLiteral = true := by
  obtain ⟨w, ha', hwa, hw⟩ := exists_atom_of_sort ha hua hoa
  obtain ⟨v, hb', hvb, hv⟩ := exists_atom_of_sort hb hub hob
  obtain rfl : w = v := by
    rw [differInSort, ← hwa, ← hvb] at hsort
    simp only [List.mem_cons, List.not_mem_nil, or_false] at hw hv
    rcases hw with rfl | rfl | rfl | rfl | rfl <;> rcases hv with rfl | rfl | rfl | rfl | rfl <;>
      first | rfl | simp [sort?] at hsort
  rcases ha' with rfl | ⟨l, rfl, rfl⟩
  · rcases hb' with rfl | ⟨l, rfl, rfl⟩
    · simp at hab
    · simp [h.literal_subtype_base] at hba
  · rcases hb' with rfl | ⟨l', rfl, -⟩
    · simp [h.literal_subtype_base] at hab
    · exact ⟨rfl, rfl⟩

/-- Two alternatives that are not disjoint and of which none is below the other are shapes. -/
theorem objects_of_not_disjoint (ha : Tidy a) (hb : Tidy b) (hua : a.isUnion = false)
    (hub : b.isUnion = false) (hab : h.subtype a b = false) (hba : h.subtype b a = false)
    (hdis : h.disjoint a b = false) : a.isObject = true ∧ b.isObject = true := by
  have hsame : a.same b = false := by
    rw [Bool.eq_false_iff]
    intro hk
    rw [h.subtype_of_key_eq (same_iff.1 hk)] at hab
    simp at hab
  rw [disjoint_knot, Rules.run_disjointStep] at hdis
  simp only [hsame, ha.not_end.1, hb.not_end.1, hua, hub, Ideal.run_answers_subtype, hab, hba] at hdis
  obtain ⟨hsort, hparts⟩ : a.differInSort b = false ∧ (Rules.partsDisjoint h.answers a b).run = false := by
    simpa using hdis
  -- a shape is of another sort than anything else
  have hdiffer {s t : Ty} (hs : s.isObject = true) (ht : Tidy t) (hut : t.isUnion = false)
      (hot : t.isObject = false) : s.differInSort t = true ∧ t.differInSort s = true := by
    obtain ⟨w, -, hw, hmem⟩ := exists_atom_of_sort ht hut hot
    cases s with
    | object _ _ =>
      rw [differInSort, differInSort, ← hw]
      simp only [List.mem_cons, List.not_mem_nil, or_false] at hmem
      rcases hmem with rfl | rfl | rfl | rfl | rfl <;> simp [sort?]
    | _ => simp [isObject] at hs
  cases hoa : a.isObject with
  | true =>
    cases hob : b.isObject with
    | true => exact ⟨rfl, rfl⟩
    | false => simp [(hdiffer hoa hb hub hob).1] at hsort
  | false =>
    cases hob : b.isObject with
    | true => simp [(hdiffer hob ha hua hoa).2] at hsort
    | false =>
      obtain ⟨hla, hlb⟩ := literals_of_sort ha hb hua hub hoa hob hsort hab hba
      cases a with
      | literal l =>
        cases b with
        | literal l' => simp [Rules.partsDisjoint] at hparts
        | _ => simp [isLiteral] at hlb
      | _ => simp [isLiteral] at hla

/-- Combining two alternatives is right, if shapes merge right. -/
theorem combines_combine (hh : Declared h.classes) {d : Nat}
    (hmeet : ∀ s t : Ty, s.depth < d → t.depth < d → Tidy s → Tidy t →
      h.Greatest [s, t] (h.intersect [s, t]))
    (ha : Tidy a) (hb : Tidy b) (hua : a.isUnion = false) (hub : b.isUnion = false) (hda : a.depth ≤ d)
    (hdb : b.depth ≤ d) : h.Combines a b (Rules.combine h.answers a b).run := by
  rw [Rules.run_combine, Ideal.run_answers_subtype, Ideal.run_answers_subtype, Ideal.run_answers_disjoint]
  cases hab : h.subtype a b with
  | true =>
    exact ⟨ha, hua, fun x hx => ⟨fun hs => ⟨hs, extended_trans hh hx.extended (.inl ha) (.inl hb) hs hab⟩,
      And.left⟩⟩
  | false =>
    cases hba : h.subtype b a with
    | true =>
      exact ⟨hb, hub, fun x hx => ⟨fun hs => ⟨extended_trans hh hx.extended (.inl hb) (.inl ha) hs hba, hs⟩,
        And.right⟩⟩
    | false =>
      cases hdis : h.disjoint a b with
      | true => exact fun x hx hxa hxb => not_point_of_disjoint ha hb hdis hx hxa hxb
      | false =>
        obtain ⟨hoa, hob⟩ := objects_of_not_disjoint ha hb hua hub hab hba hdis
        cases a with
        | object tagA propsA =>
          cases b with
          | object tagB propsB =>
            obtain rfl : tagA = "" := ha.own.1.1
            obtain rfl : tagB = "" := hb.own.1.1
            refine combines_mergeObjects ha hb fun pa hpa pb hpb => ?_
            have hparta : pa.type ∈ (Ty.object "" propsA).parts := List.mem_map_of_mem hpa
            have hpartb : pb.type ∈ (Ty.object "" propsB).parts := List.mem_map_of_mem hpb
            have hlta : 1 + pa.type.depth ≤ _ := depth_part_le hparta
            have hltb : 1 + pb.type.depth ≤ _ := depth_part_le hpartb
            exact hmeet _ _ (by omega) (by omega) (ha.part hparta) (hb.part hpartb)
          | _ => simp [isObject] at hob
        | _ => simp [isObject] at hoa

/-! ## Intersections -/

/-- An alternative of record data that goes no deeper than `d`. -/
structure Operand (d : Nat) (t : Ty) : Prop where
  tidy : Tidy t
  isUnion : t.isUnion = false
  depth_le : t.depth ≤ d

section Intersect

variable {d : Nat} {ts ms : List Ty}

section Members

variable (hh : Declared h.classes) (hmeet : ∀ s t : Ty, s.depth < d → t.depth < d → Tidy s → Tidy t →
  h.Greatest [s, t] (h.intersect [s, t]))

include hh hmeet in
theorem combine_operand (ha : Operand d a) (hb : Operand d b)
    (hc : (Rules.combine h.answers a b).run = .into t) : Operand d t := by
  have hright := combines_combine hh hmeet ha.tidy hb.tidy ha.isUnion hb.isUnion ha.depth_le hb.depth_le
  rw [hc] at hright
  exact ⟨hright.1, hright.2.1, combine_depth_le ha.depth_le hb.depth_le hc⟩

include hh hmeet in
/-- One round of fusing leaves what is below all members as it is. -/
theorem point_fuses_iff (hms : ∀ m ∈ ms, Operand d m) {ms' : List Ty} (hf : Rules.Fuses h.answers ms ms')
    (hx : Point x) : (∀ m ∈ ms, h.subtype x m = true) ↔ ∀ m ∈ ms', h.subtype x m = true := by
  cases hf with
  | @fused before between after a b t heq hc =>
    subst heq
    have ha := hms a (by simp)
    have hb := hms b (by simp)
    have hright := combines_combine hh hmeet ha.tidy hb.tidy ha.isUnion hb.isUnion ha.depth_le hb.depth_le
    rw [hc] at hright
    have ht := hright.2.2 x hx
    constructor
    · intro hall m hm
      rcases (by simpa using hm : m ∈ before ∨ m = t ∨ m ∈ between ∨ m ∈ after) with hm | rfl | hm | hm
      · exact hall m (by simp [hm])
      · exact ht.2 ⟨hall a (by simp), hall b (by simp)⟩
      · exact hall m (by simp [hm])
      · exact hall m (by simp [hm])
    · intro hall m hm
      have hab := ht.1 (hall t (by simp))
      rcases (by simpa using hm : m ∈ before ∨ m = a ∨ m ∈ between ∨ m = b ∨ m ∈ after) with
        hm | rfl | hm | rfl | hm
      · exact hall m (by simp [hm])
      · exact hab.1
      · exact hall m (by simp [hm])
      · exact hab.2
      · exact hall m (by simp [hm])

include hh hmeet in
/-- What fusing alternatives comes to is below the same as all of them. Since no two alternatives stay side by
side, at most one is left. -/
theorem greatest_of_settled {result : Option (List Ty)} (hs : Rules.Settled h.answers ms result)
    (hms : ∀ m ∈ ms, Operand d m) :
    match result with
    | none => h.Greatest ms .never
    | some ms' => h.Greatest ms (Rules.interOf ms' : Ideal h Ty).run := by
  induction hs with
  | @done ms hapart =>
    match ms with
    | [] =>
      refine ⟨.inr (.inr rfl), fun _ => ?_⟩
      simp [Rules.interOf]
    | [m] =>
      refine ⟨.inl (hms m (by simp)).tidy, fun _ => ?_⟩
      simp [Rules.interOf]
    | a :: b :: _ =>
      -- any two alternatives combine, so there are no two that stay apart
      have ha := hms a (by simp)
      have hb := hms b (by simp)
      have hright := combines_combine hh hmeet ha.tidy hb.tidy ha.isUnion hb.isUnion ha.depth_le hb.depth_le
      rw [List.rel_of_pairwise_cons hapart (by simp)] at hright
      exact hright.elim
  | @empty ms a b hsub hc =>
    have ha := hms a (hsub.subset (by simp))
    have hb := hms b (hsub.subset (by simp))
    have hright := combines_combine hh hmeet ha.tidy hb.tidy ha.isUnion hb.isUnion ha.depth_le hb.depth_le
    rw [hc] at hright
    refine ⟨.inr (.inl rfl), fun {x} hx => ⟨fun hs => ?_, fun hall => ?_⟩⟩
    · have hn := hx.isNever
      rw [subtype_never_iff] at hs
      simp [hs, isNever] at hn
    · exact (hright x hx (hall a (hsub.subset (by simp))) (hall b (hsub.subset (by simp)))).elim
  | @round ms ms' result hf _ ih =>
    have hms' : ∀ m ∈ ms', Operand d m :=
      hf.forall (fun a b t ha hb hc => combine_operand hh hmeet ha hb hc) hms
    have hiff {x : Ty} (hx : Point x) := point_fuses_iff hh hmeet hms hf hx
    have hg := ih hms'
    cases result with
    | none => exact ⟨hg.extended, fun hx => (hg.point_iff hx).trans (hiff hx).symm⟩
    | some rest => exact ⟨hg.extended, fun hx => (hg.point_iff hx).trans (hiff hx).symm⟩

end Members

/-- A union of record data, with the ends of the order among it or not, is one. -/
theorem union_extended (hts : ∀ t ∈ ts, Extended t) : Extended (h.union ts) := by
  have hmember (m) (hm : m ∈ (h.union ts).members) : Point m := by
    rcases of_mem_members_union hm with ⟨t, ht, halt⟩ | ⟨rfl, -⟩
    · exact (hts t ht).point ((hts t ht).canonical.flat.mem_members halt)
    · exact ⟨.inl (.intro trivial trivial trivial (by simp [parts])), rfl, rfl⟩
  rcases union_cases h ts with hu | hu | ⟨ms, hu, -, -, hms⟩
  · exact .inr (.inl hu)
  · rw [members_of_not_union hu.1 hu.2] at hmember
    exact (hmember _ (by simp)).extended
  · rw [hu] at hmember ⊢
    refine .inl (.intro trivial trivial (union_orderly h ts hu) fun m hm => ?_)
    have hm' := isMember_iff.1 (hms m hm)
    rcases (hmember m hm).extended with ht | rfl | rfl
    · exact ht
    · simp [isNever] at hm'
    · simp [isUnknown] at hm'

/-- The members that an intersection starts from are its arguments, without `unknown` and repetitions. -/
theorem mem_flat_iff {flat : List Ty} (hts : ∀ t ∈ ts, Extended t) (hp : conjunctsAll ts = some flat) :
    t ∈ dedup flat ↔ t ∈ ts ∧ Tidy t := by
  have hparted := parted_of_conjunctsAll hp
  have hflat {t : Ty} : t ∈ flat ↔ t ∈ ts ∧ Tidy t := by
    rw [hparted.2 t]
    constructor
    · rintro ⟨s, hs, hconj⟩
      obtain ⟨rfl, hk⟩ := (Conjunct.iff_of_not_inter (hts s hs).isInter).1 hconj
      rcases hts t hs with ht | rfl | rfl
      · exact ⟨hs, ht⟩
      · exact absurd hconj (hparted.1 _ hs)
      · simp [isUnknown] at hk
    · rintro ⟨ht, htidy⟩
      exact ⟨t, ht, .self htidy.not_end.2.2 htidy.not_end.2.1⟩
  constructor
  · exact fun ht => hflat.1 (mem_of_mem_dedup ht)
  · intro ht
    obtain ⟨s, hs, hk⟩ := exists_mem_dedup (hflat.2 ht)
    rwa [← eq_of_key_eq_of_extended (.inl (hflat.1 (mem_of_mem_dedup hs)).2) (.inl ht.2) hk]

/-- What is below all of these members is below all arguments. -/
theorem forall_flat_iff {flat : List Ty} (hts : ∀ t ∈ ts, Extended t) (hp : conjunctsAll ts = some flat) :
    (∀ m ∈ dedup flat, h.subtype x m = true) ↔ ∀ s ∈ ts, h.subtype x s = true := by
  constructor
  · intro hall s hs
    rcases hts s hs with ht | rfl | rfl
    · exact hall s ((mem_flat_iff hts hp).2 ⟨hs, ht⟩)
    · exact absurd (.self rfl rfl) ((parted_of_conjunctsAll hp).1 _ hs)
    · exact h.subtype_unknown x
  · exact fun hall m hm => hall m ((mem_flat_iff hts hp).1 hm).1

/-- An intersection distributes over a union: what is below the union of the intersections is below the union
and the other members. -/
theorem greatest_spread (hh : Declared h.classes) {us others : List Ty} (hu : Tidy (.union us))
    (hothers : ∀ t ∈ others, Tidy t)
    (hg : ∀ u ∈ us, h.Greatest (u :: others) (h.intersect (u :: others))) :
    h.Greatest (.union us :: others) (h.union (us.map fun u => h.intersect (u :: others))) := by
  have hext : ∀ t ∈ us.map fun u => h.intersect (u :: others), Extended t := by
    rintro t ht
    obtain ⟨u, hu, rfl⟩ := List.mem_map.1 ht
    exact (hg u hu).extended
  have hunion := union_extended (h := h) hext
  have hall : ∀ s ∈ Ty.union us :: others, Tidy s := by simpa [hu] using hothers
  -- what is below one of the intersections is below its alternative, and so below the union
  have hbelow {y u : Ty} (hy : Point y) (hmem : u ∈ us) (hs : h.subtype y (h.intersect (u :: others)) = true)
      (s : Ty) (hsmem : s ∈ Ty.union us :: others) : h.subtype y s = true := by
    have heach := ((hg u hmem).point_iff hy).1 hs
    rcases List.mem_cons.1 hsmem with rfl | hsmem
    · exact (point_subtype_iff hy (.inl hu)).2 ⟨u, hmem, heach u (by simp)⟩
    · exact heach s (by simp [hsmem])
  refine ⟨hunion, fun {x} hx => ⟨fun hs s hsmem => ?_, fun hall' => ?_⟩⟩
  · obtain ⟨m, hm, hxm⟩ := (point_subtype_iff hx hunion).1 hs
    refine extended_trans hh hx.extended (hunion.point hm).extended (.inl (hall s hsmem)) hxm ?_
    rcases of_mem_members_union hm with ⟨t, ht, halt⟩ | ⟨rfl, hboth⟩
    · have hmt := (hext t ht).canonical.flat.mem_members halt
      obtain ⟨u, hmem, rfl⟩ := List.mem_map.1 ht
      exact hbelow (hunion.point hm) hmem
        ((point_subtype_iff (hunion.point hm) (hext _ ht)).2 ⟨m, hmt, h.subtype_self m⟩) s hsmem
    · -- `boolean` stands for both of its values, and is below what both are below
      refine boolean_subtype (hall s hsmem).canonical (hall s hsmem).not_both fun b => ?_
      obtain ⟨t, ht, y, halt, hk⟩ := hboth b
      obtain rfl := eq_bool_of_key_eq hk
      have hyt := (hext t ht).canonical.flat.mem_members halt
      have hy := (hext t ht).point hyt
      obtain ⟨u, hmem, rfl⟩ := List.mem_map.1 ht
      exact hbelow hy hmem ((point_subtype_iff hy (hext _ ht)).2 ⟨_, hyt, h.subtype_self _⟩) s hsmem
  · obtain ⟨u, hmem, hxu⟩ := (point_subtype_iff hx (.inl hu)).1 (hall' (.union us) (by simp))
    have hxmet : h.subtype x (h.intersect (u :: others)) = true := by
      refine ((hg u hmem).point_iff hx).2 fun s hs => ?_
      rcases List.mem_cons.1 hs with rfl | hs
      · exact hxu
      · exact hall' s (by simp [hs])
    have hlist : h.intersect (u :: others) ∈ us.map fun u => h.intersect (u :: others) :=
      List.mem_map_of_mem hmem
    exact extended_trans hh hx.extended (hext _ hlist) hunion hxmet
      (subtype_union (hext _ hlist).canonical hlist)

/-- The greatest lower bound of the members of an intersection is one of its arguments. -/
theorem Greatest.of_flat {flat : List Ty} (hts : ∀ t ∈ ts, Extended t) (hp : conjunctsAll ts = some flat)
    (hms : ∀ m, m ∈ ms ↔ m ∈ dedup flat) (hg : h.Greatest ms t) : h.Greatest ts t :=
  ⟨hg.extended, fun hx => by
    rw [hg.point_iff hx, ← forall_flat_iff hts hp]
    exact forall_congr' fun m => by rw [hms]⟩

/-- An intersection is a greatest lower bound if those of less depth, or of less spread, are. -/
theorem greatest_of_met (hh : Declared h.classes) {met : Ty} (hts : ∀ t ∈ ts, Extended t)
    (hmeet : ∀ s t : Ty, s.depth < greatest depth ts → t.depth < greatest depth ts → Tidy s → Tidy t →
      h.Greatest [s, t] (h.intersect [s, t]))
    (hspread : ∀ us : List Ty, greatest depth us ≤ greatest depth ts → spreadAll us < spreadAll ts →
      (∀ u ∈ us, Extended u) → h.Greatest us (h.intersect us))
    (hmet : Rules.Met h.answers ts met) : h.Greatest ts met := by
  cases hmet with
  | never ht hn =>
    obtain ⟨rfl, -⟩ := (Conjunct.iff_of_not_inter (hts _ ht).isInter).1 hn
    refine ⟨hts _ ht, fun {x} hx => ⟨fun hs => ?_, fun hall => hall _ ht⟩⟩
    have hn := hx.isNever
    rw [subtype_never_iff] at hs
    simp [hs, isNever] at hn
  | @spread flat us before after hp hflat =>
    have hmem {t : Ty} : t ∈ Ty.union us :: (before ++ after) ↔ t ∈ dedup flat := by
      rw [hflat]
      simp [or_left_comm]
    have htidy {t : Ty} (ht : t ∈ Ty.union us :: (before ++ after)) : t ∈ ts ∧ Tidy t :=
      (mem_flat_iff hts hp).1 (hmem.1 ht)
    have hunion := htidy (List.mem_cons_self ..)
    have hle : spreadAll (dedup flat) ≤ spreadAll ts :=
      Nat.le_trans (Rules.spreadAll_le_of_sublist (dedup_sublist flat)) (Rules.spreadAll_conjunctsAll hp)
    rw [hflat] at hle
    simp only [Ideal.run_answers_intersect]
    refine .of_flat hts hp (fun m => hmem) (greatest_spread hh hunion.2
      (fun t ht => (htidy (List.mem_cons_of_mem _ ht)).2) fun u hu => ?_)
    have hdepth : 0 + u.depth ≤ _ := depth_part_le (t := .union us) hu
    -- an alternative is no deeper than its union, and has less to spread
    refine hspread _ ?_ ?_ ?_
    · refine greatest_le fun t ht => ?_
      rcases List.mem_cons.1 ht with rfl | ht
      · have := le_greatest (f := depth) hunion.1
        omega
      · exact le_greatest (htidy (List.mem_cons_of_mem _ ht)).1
    · have := le_greatest (f := spread) hu
      simp only [spreadAll_append, spreadAll_cons, spread_union] at hle ⊢
      omega
    · intro t ht
      rcases List.mem_cons.1 ht with rfl | ht
      · exact .inl (hunion.2.part hu)
      · exact .inl (htidy (List.mem_cons_of_mem _ ht)).2
  | @excluded flat hp hu hs =>
    have hms (m) (hm : m ∈ dedup flat) : Operand (greatest depth ts) m :=
      ⟨((mem_flat_iff hts hp).1 hm).2, hu m hm, le_greatest ((mem_flat_iff hts hp).1 hm).1⟩
    exact .of_flat hts hp (fun m => .rfl) (greatest_of_settled hh hmeet hs hms)
  | @settled flat members hp hu hs =>
    have hms (m) (hm : m ∈ dedup flat) : Operand (greatest depth ts) m :=
      ⟨((mem_flat_iff hts hp).1 hm).2, hu m hm, le_greatest ((mem_flat_iff hts hp).1 hm).1⟩
    exact .of_flat hts hp (fun m => .rfl) (greatest_of_settled hh hmeet hs hms)

/-- **An intersection of record data is its greatest lower bound.** The induction is on depth, and on spread
within one depth. -/
theorem intersect_greatest (hh : Declared h.classes) (hts : ∀ t ∈ ts, Extended t) :
    h.Greatest ts (h.intersect ts) := by
  generalize hd : greatest depth ts = d
  generalize hn : spreadAll ts = n
  induction d using Nat.strongRecOn generalizing ts n with
  | ind d ihd =>
    induction n using Nat.strongRecOn generalizing ts with
    | ind n ihn =>
      subst hd hn
      rw [intersect_knot]
      refine greatest_of_met hh hts ?_ ?_ (Rules.intersectStep_met _ ts)
      · intro s t hs ht hts htt
        have hlt : greatest depth [s, t] < greatest depth ts := by
          simp only [greatest_cons, greatest_nil]
          omega
        exact ihd _ hlt (by simpa using ⟨.inl hts, .inl htt⟩) rfl _ rfl
      · intro us hdepth hspread hus
        rcases Nat.lt_or_eq_of_le hdepth with hlt | heq
        · exact ihd _ hlt hus rfl _ rfl
        · exact ihn _ hspread hus heq rfl

end Intersect

end Hierarchy

/-! ## Universes -/

namespace Universe

variable {h : Hierarchy} {u : Universe} {a b c t : Ty}

/-- Record data that a universe keeps has words for names, and is simplified. -/
theorem Sound.tidy (hu : u.Sound h) (ht : u.Keeps t) (hr : Record t) : Tidy t := by
  induction t using parts_induction with
  | step t ih =>
    cases hr with
    | intro hown hparts =>
      exact .intro hown (hu.ownNamed ht) (hu.orderly ht) fun s hs => ih s hs (hu.part ht s hs) (hparts s hs)

/-- **Meet is the greatest lower bound on record data**: in every universe that comes of a new one by calls with
words for names, by declarations of classes and by passes over bodies, a type is below the meet of two types
exactly if it is below both. Each of the three is record data or an end of the order. -/
theorem History.subtype_meet_iff (hu : u.History) (ha : u.Keeps a) (hb : u.Keeps b) (hc : u.Keeps c)
    (har : Record a ∨ a = .never ∨ a = .unknown) (hbr : Record b ∨ b = .never ∨ b = .unknown)
    (hcr : Record c ∨ c = .never ∨ c = .unknown) :
    (((do TypeStore.subtype c (← TypeStore.meet a b)) : InUniverse Bool).run u).1 = true ↔
      ((TypeStore.subtype c a : InUniverse Bool).run u).1 = true ∧
        ((TypeStore.subtype c b : InUniverse Bool).run u).1 = true := by
  obtain ⟨hsound, hproper⟩ := hu.sound
  have hextended {t : Ty} (ht : u.Keeps t) (hr : Record t ∨ t = .never ∨ t = .unknown) : Extended t :=
    hr.imp_left fun hr => hsound.tidy ht hr
  have hpair : ∀ t ∈ [a, b], Extended t := by simpa using ⟨hextended ha har, hextended hb hbr⟩
  have heach {t : Ty} (ht : u.Keeps t) : ((TypeStore.subtype c t : InUniverse Bool).run u).1 =
      u.classes.subtype c t :=
    (says_subtype (hsound.stands hc) (hsound.stands ht) u hsound (.refl _ u)).2.2
  have hmeet : u.Says u.classes (do TypeStore.subtype c (← TypeStore.meet a b))
      (u.classes.subtype c (u.classes.intersect [a, b])) :=
    (yields_intersect (hsound.stands_all (by simpa using ⟨ha, hb⟩))).bind fun v met hv huv hmet =>
      says_subtype (hv.stands (huv.keeps hc)) hmet
  rw [(hmeet u hsound (.refl _ u)).2.2, heach ha, heach hb,
    (Hierarchy.intersect_greatest hproper.declared hpair).subtype_iff hpair (hextended hc hcr)]
  simp

/-- A shape with the properties of two others. -/
def shapeAB : Ty := .object "" [{ name := "a", type := .string }, { name := "b", type := .number }]

/-- Making a shape of atoms, with words for names, is part of a history. -/
theorem history_object {ts : List Ty} (props : List (Property Ty)) (hu : (holding ts).History)
    (hts : (ts.map Ty.key).Nodup) (hnew : (Ty.object "" props).key ∉ ts.map Ty.key)
    (hsorted : TypeStore.sortProps props = props) (hprops : ∀ p ∈ props, p.type ∈ ts)
    (hnames : ∀ p ∈ props, Text.IsWord p.name) : (holding (ts ++ [.object "" props])).History := by
  have hword : Text.IsWord "" := by decide
  have hcall : ((Call.object "" props).serve.run (holding ts)).2 = holding (ts ++ [.object "" props]) := by
    show ((holding ts).intern (.object "" (TypeStore.sortProps props))).2 = _
    rw [hsorted, intern_of_not_mem hts hnew]
  rw [← hcall]
  refine .call hu _ (fun t ht => ?_) (by simpa [Call.names, hword] using hnames)
  obtain ⟨p, hp, rfl⟩ := List.mem_map.1 ht
  exact (lookup?_holding hts).2 ⟨hprops p hp, rfl⟩

/-- The entries after three shapes were made. -/
def shapes : List Ty := Ty.atoms ++ [Session.shapeA] ++ [Session.shapeB] ++ [shapeAB]

theorem shapes_history : (holding shapes).History := by
  have hnew : (holding Ty.atoms).History := .new 0
  have ha := history_object [{ name := "a", type := .string }] hnew (by decide) (by decide) rfl
    (by simp [Ty.atoms]) (by decide)
  have hb := history_object [{ name := "b", type := .number }] ha (by decide) (by decide) rfl
    (by simp [Ty.atoms]) (by decide)
  exact history_object _ hb (by decide) (by decide) (by with_unfolding_all rfl) (by simp [Ty.atoms]) (by decide)

/-- A shape of atoms none of which is a length is record data. -/
theorem record_shape {props : List (Property Ty)}
    (hown : ∀ p ∈ props, p.optional = false ∧ p.name ≠ Rules.lengthName)
    (htypes : ∀ p ∈ props, p.type = .string ∨ p.type = .number) : Record (.object "" props) := by
  refine .intro ⟨rfl, hown⟩ fun s hs => ?_
  obtain ⟨p, hp, rfl⟩ := List.mem_map.1 hs
  rcases htypes p hp with heq | heq <;> rw [heq] <;> exact .intro trivial (by simp [parts])

theorem shapes_record : Record Session.shapeA ∧ Record Session.shapeB ∧ Record shapeAB := by
  have ha : Text.ofString "a" ≠ Rules.lengthName := by decide
  have hb : Text.ofString "b" ≠ Rules.lengthName := by decide
  exact ⟨record_shape (by simpa using ha) (by simp), record_shape (by simpa using hb) (by simp),
    record_shape (by simpa using ⟨ha, hb⟩) (by simp)⟩

/-- What has both properties is below the meet of the shapes that have one of them. -/
theorem shapes_meet : (holding shapes).History ∧
    (((do TypeStore.subtype shapeAB (← TypeStore.meet Session.shapeA Session.shapeB)) :
      InUniverse Bool).run (holding shapes)).1 = true := by
  have hkeeps {t : Ty} (ht : t ∈ shapes) : (holding shapes).Keeps t :=
    (lookup?_holding (by decide)).2 ⟨ht, rfl⟩
  have ha : (holding shapes).Keeps Session.shapeA := hkeeps (by simp [shapes])
  have hb : (holding shapes).Keeps Session.shapeB := hkeeps (by simp [shapes])
  have hab : (holding shapes).Keeps shapeAB := hkeeps (by simp [shapes])
  obtain ⟨hra, hrb, hrab⟩ := shapes_record
  exact ⟨shapes_history,
    (shapes_history.subtype_meet_iff ha hb hab (.inl hra) (.inl hrb) (.inl hrab)).2 ⟨rfl, rfl⟩⟩

end Universe

/-! ## Names that are no words -/

namespace Session

open Universe

/-- A shape with one property, whose name looks like one property and the start of another. -/
def veiled : Ty := .object "" [{ name := "a:string;b", type := .number }]

/-- Makes the veiled shape, then the two shapes that it looks like together. -/
def veiling : List Call :=
  [.object "" [{ name := "a:string;b", type := .number }], .object "" [{ name := "a", type := .string }],
    .object "" [{ name := "b", type := .number }]]

def veiledEntries : List Ty := Ty.atoms ++ [veiled] ++ [shapeA] ++ [shapeB]

theorem run_veiling : (start 0).run veiling =
    { store := holding veiledEntries, answered := [shapeB, shapeA, veiled] ++ Ty.atoms } := by
  have hstart : start 0 = { store := holding Ty.atoms, answered := Ty.atoms } := rfl
  rw [hstart, veiling]
  simp only [run, List.foldl]
  rw [call_object (by decide) (by decide), ← veiled, call_object (by decide) (by decide), ← shapeA,
    call_object (by decide) (by decide), ← shapeB, veiledEntries]
  rfl

/-- The two shapes merge into one with the key of the veiled shape. -/
theorem run_meet_veiled : (TypeStore.meet shapeA shapeB : InUniverse Ty).run (holding veiledEntries) =
    (veiled, holding veiledEntries) := by
  have hkey : shapeAB.key = veiled.key := by decide
  have hmerged : ((Rules.upTo (stepBound [shapeA, shapeB])).intersect [shapeA, shapeB] : InUniverse Ty).run
      (holding veiledEntries) = (holding veiledEntries).intern shapeAB := by
    with_unfolding_all rfl
  rw [intern_of_mem (by decide) (by simp [veiledEntries]) hkey] at hmerged
  exact run_bounded_of_run hmerged rfl rfl

/-- The veiled shape is the meet of two shapes that it is below neither of. -/
theorem veiled_not_below :
    (∀ t ∈ [shapeA, shapeB, veiled], t ∈ ((start 0).run veiling).answered ∧ Record t) ∧
      (((do TypeStore.subtype veiled (← TypeStore.meet shapeA shapeB)) :
        InUniverse Bool).run ((start 0).run veiling).store).1 = true ∧
      ((TypeStore.subtype veiled shapeA : InUniverse Bool).run ((start 0).run veiling).store).1 = false ∧
      ((TypeStore.subtype veiled shapeB : InUniverse Bool).run ((start 0).run veiling).store).1 = false := by
  rw [run_veiling, run_bind_of_run run_meet_veiled]
  have hveiled : Record veiled :=
    record_shape (by simpa using (by decide : Text.ofString "a:string;b" ≠ Rules.lengthName)) (by simp)
  refine ⟨?_, rfl, rfl, rfl⟩
  simpa using ⟨shapes_record.1, shapes_record.2.1, hveiled⟩

end Session
end FlowTyping
