import FlowTyping.Proofs.Relation.Order
import FlowTyping.Proofs.Relation.Meet
import Mathlib.Data.List.Nodup

/-!
# What is above a single value

A unit type is below few types that are no unions: itself and its atom, `unknown`, and, since a text has
a length and every value but `null` and `undefined` has the empty shape, plain object shapes. It is
below no intersection, whose members never combine, and below no type parameter.

* **`Hierarchy.unit_subtype_members`** — a unit type is below a type when it is below an alternative.
* **`Hierarchy.above_unit`** — the alternatives that can be above a unit type.
* **`Hierarchy.unit_subtype_union`**, **`Hierarchy.exists_of_unit_subtype_union`** — the same of unions
  as they are built.
* **`Hierarchy.not_unit_subtype_intersect`** — an intersection with a type parameter is above no unit
  type.
* **`Hierarchy.literal_subtype_of_base`** — what is above an atom is above its literals.
-/

namespace FlowTyping

namespace Ty

/-- Whether the type is a type parameter. -/
def isVar : Ty → Bool
  | .var _ _ => true
  | _ => false

/-- Whether the type is an object shape. -/
def isObject : Ty → Bool
  | .object _ _ => true
  | _ => false

variable {a b : Ty}

theorem isVar_of_key_eq (ha : a.isVar = true) (hk : b.key = a.key) : b.isVar = true := by
  have hhead := head_eq_of_key_eq hk
  cases a with
  | var name bound =>
    cases b with
    | var _ _ => rfl
    | literal l => cases l <;> simp [head] at hhead
    | _ => simp [head] at hhead
  | _ => simp [isVar] at ha

theorem isObject_of_key_eq (ha : a.isObject = true) (hk : b.key = a.key) : b.isObject = true := by
  have hhead := head_eq_of_key_eq hk
  cases a with
  | object tag props =>
    cases b with
    | object _ _ => rfl
    | literal l => cases l <;> simp [head] at hhead
    | _ => simp [head] at hhead
  | _ => simp [isObject] at ha

/-- The members of a canonical type have different keys. -/
theorem Canonical.eq_of_mem {t x y : Ty} (ht : Canonical t) (hx : x ∈ t.members)
    (hy : y ∈ t.members) (hk : x.key = y.key) : x = y := by
  cases t with
  | never => simp [members] at hx
  | union ms => exact List.inj_on_of_nodup_map ht.neat.2.1 hx hy hk
  | _ => rw [List.mem_singleton.1 hx, List.mem_singleton.1 hy]

end Ty

namespace Hierarchy

open Ty

variable {h : Hierarchy} {v m t x : Ty} {ts : List Ty}

/-! ## The rule for a unit type on the left -/

/-- A unit type is below what has its key, and else as the rule for its right side says. -/
theorem unit_subtype_of_head_ne (hv : v.isUnit = true) (hn : t.isNever = false)
    (hk : t.isUnknown = false) (hi : t.isInter = false) :
    h.subtype v t = (decide (v.key = t.key) || (Rules.rightSubtype h.answers v t).run) := by
  rw [subtype_eq]
  cases v with
  | literal l => cases t <;> first | rfl | simp [isNever, isUnknown, isInter] at hn hk hi
  | null | undefined => cases t <;> first | rfl | simp [isNever, isUnknown, isInter] at hn hk hi
  | _ => simp [isUnit] at hv

theorem unit_key_ne (hv : v.isUnit = true) (ht : t.isUnit = false) : v.key ≠ t.key := by
  intro hk
  simp [isUnit_of_key_eq hv hk.symm] at ht

theorem unit_subtype_union_iff (hv : v.isUnit = true) {ms : List Ty} :
    h.subtype v (.union ms) = true ↔ ∃ m ∈ ms, h.subtype v m = true := by
  rw [unit_subtype_of_head_ne hv rfl rfl rfl, decide_eq_false (unit_key_ne hv rfl), Bool.false_or]
  cases v with
  | literal _ | null | undefined => simp [Rules.rightSubtype]
  | _ => simp [isUnit] at hv

theorem unit_subtype_inter_iff (hv : v.isUnit = true) {ms : List Ty} :
    h.subtype v (.inter ms) = true ↔ ∀ m ∈ ms, h.subtype v m = true := by
  rw [subtype_eq, decide_eq_false (unit_key_ne hv rfl), Bool.false_or]
  cases v with
  | literal _ | null | undefined => simp [Rules.subtypeRule]
  | _ => simp [isUnit] at hv

theorem not_unit_subtype_var (hv : v.isUnit = true) (ht : t.isVar = true) :
    h.subtype v t = false := by
  cases t with
  | var name bound =>
    rw [unit_subtype_of_head_ne hv rfl rfl rfl, decide_eq_false (unit_key_ne hv rfl), Bool.false_or]
    cases v with
    | literal _ | null | undefined => simp [Rules.rightSubtype, Rules.plainSubtype]
    | _ => simp [isUnit] at hv
  | _ => simp [isVar] at ht

/-- Only plain shapes are above a unit type, and only above literals. -/
theorem unit_subtype_object (hv : v.isUnit = true) {tag : String} {props : List (Property Ty)}
    (hs : h.subtype v (.object tag props) = true) : v.isLiteral = true ∧ tag = "" := by
  rw [unit_subtype_of_head_ne hv rfl rfl rfl, decide_eq_false (unit_key_ne hv rfl),
    Bool.false_or] at hs
  cases v with
  | literal l =>
    refine ⟨rfl, ?_⟩
    rw [Rules.rightSubtype, Rules.plainSubtype, Rules.run_objectSubtype] at hs
    · simpa [Rules.tagFits] using (Bool.and_eq_true_iff.1 hs).1
    all_goals simp
  | null | undefined =>
    simp [Rules.rightSubtype, Rules.plainSubtype, Rules.objectSubtype] at hs
  | _ => simp [isUnit] at hv

/-- A unit type is below a type when it is below one of its alternatives. -/
theorem unit_subtype_members (hv : v.isUnit = true) :
    h.subtype v t = true ↔ ∃ m ∈ t.members, h.subtype v m = true := by
  cases t with
  | never =>
    rw [subtype_never_iff]
    constructor
    · rintro rfl
      simp [isUnit] at hv
    · simp [members]
  | union ms => exact unit_subtype_union_iff hv
  | _ => simp [members]

/-- A plain type above a unit type stands for it, or is `unknown` or a shape. -/
theorem above_unit_plain (hv : v.isUnit = true) (hu : m.isUnion = false) (hi : m.isInter = false)
    (hs : h.subtype v m = true) : StandsFor m v ∨ m = .unknown ∨ m.isObject = true := by
  cases m with
  | unknown => exact .inr (.inl rfl)
  | object tag props => exact .inr (.inr rfl)
  | union ms => simp [isUnion] at hu
  | inter ms => simp [isInter] at hi
  | never =>
    rw [subtype_never_iff] at hs
    subst hs
    simp [isUnit] at hv
  | var name bound => simp [not_unit_subtype_var hv (t := .var name bound) rfl] at hs
  | _ =>
    rw [unit_subtype_of_head_ne hv rfl rfl rfl, Bool.or_eq_true_iff, decide_eq_true_iff] at hs
    rcases hs with hk | hr
    · exact .inl (.inl hk.symm)
    · cases v with
      | literal l =>
        cases l <;> simp [Rules.rightSubtype, Rules.plainSubtype, Literal.base, same_iff] at hr
        all_goals first
          | exact .inl (.inr ⟨_, rfl, rfl⟩)
          | exact absurd (head_eq_of_key_eq hr) (by simp [head])
      | null | undefined => simp [Rules.rightSubtype, Rules.plainSubtype] at hr
      | _ => simp [isUnit] at hv

/-! ## Intersections -/

/-- Plain shapes never stay side by side in an intersection. -/
theorem not_apart_plain_shapes {propsA propsB : List (Property Ty)} :
    ¬ Apart (.object "" propsA) (.object "" propsB) := by
  have hmerge (h : Hierarchy) (propsA propsB : List (Property Ty)) :
      (Rules.combine h.answers (.object "" propsA) (.object "" propsB)).run ≠ .apart := by
    rw [Rules.run_combine]
    split
    · simp
    · split
      · simp
      · split
        · simp
        · rw [Rules.mergeObjects]
          simp only [Rules.mergedTag, Ideal.run_bind, beq_self_eq_true, if_true]
          cases (Rules.mergedProps h.answers propsB propsA).run <;> simp
  rintro ⟨h, hc | hc⟩
  · exact hmerge h propsA propsB hc
  · exact hmerge h propsB propsA hc

theorem sort?_of_unit (hv : v.isUnit = true) : ∃ s, v.sort? = some s ∧ s ≠ .object := by
  cases v with
  | literal l => cases l <;> exact ⟨_, rfl, by decide⟩
  | null | undefined => exact ⟨_, rfl, by decide⟩
  | _ => simp [isUnit] at hv

theorem sort?_of_standsFor (hv : v.isUnit = true) (hm : StandsFor m v) : m.sort? = v.sort? := by
  rcases hm with hk | ⟨l, rfl, rfl⟩
  · cases v with
    | literal l =>
      obtain ⟨l', rfl, hbase⟩ := literal_of_key_eq hk
      cases l <;> cases l' <;> first | rfl | simp [Literal.base] at hbase
    | null | undefined => rw [eq_of_key_eq_atom (by simp [atoms]) hk]
    | _ => simp [isUnit] at hv
  · cases l <;> rfl

/-- No two members of an intersection are above one unit type: they would combine. -/
theorem not_both_above {a b : Ty} (hv : v.isUnit = true) (hab : Apart a b)
    (ha : a.isMember = true ∧ a.isInter = false) (hb : b.isMember = true ∧ b.isInter = false)
    (hva : h.subtype v a = true) (hvb : h.subtype v b = true) : False := by
  have hma := isMember_iff.1 ha.1
  have hmb := isMember_iff.1 hb.1
  obtain ⟨hsort, -⟩ := hab.same_sort ha.1 hb.1
  obtain ⟨h', hsub, hsub', -⟩ := hab.not_disjoint
  obtain ⟨s, hs, hobject⟩ := sort?_of_unit hv
  have hshape {x : Ty} (hx : x.isObject = true) : x.sort? = some .object := by
    cases x with
    | object _ _ => rfl
    | _ => simp [isObject] at hx
  have hstands {x : Ty} (hx : StandsFor x v) : x.sort? = some s := by
    rw [sort?_of_standsFor hv hx, hs]
  have hunknown {x : Ty} (hx : x.isUnknown = false) : x ≠ .unknown := by
    rintro rfl
    simp [isUnknown] at hx
  rcases above_unit_plain hv hma.1 ha.2 hva with hsa | hsa | hsa
  · rcases above_unit_plain hv hmb.1 hb.2 hvb with hsb | hsb | hsb
    · -- both stand for the value: they have one key, or one is the atom of the other
      rcases hsa with hka | ⟨l, rfl, rfl⟩
      · rcases hsb with hkb | ⟨l, rfl, rfl⟩
        · simp [h'.subtype_of_key_eq (hka.trans hkb.symm)] at hsub
        · obtain ⟨l', rfl, hbase⟩ := literal_of_key_eq hka
          rw [← hbase, h'.literal_subtype_base] at hsub
          simp at hsub
      · rcases hsb with hkb | ⟨l', hl, rfl⟩
        · obtain ⟨l', rfl, hbase⟩ := literal_of_key_eq hkb
          rw [← hbase, h'.literal_subtype_base] at hsub'
          simp at hsub'
        · cases hl
          simp at hsub
    · exact hunknown hmb.2.2 hsb
    · -- an atom or literal and a shape differ in sort, so they would exclude each other
      simp [differInSort, hstands hsa, hshape hsb, hobject] at hsort
  · exact hunknown hma.2.2 hsa
  · rcases above_unit_plain hv hmb.1 hb.2 hvb with hsb | hsb | hsb
    · simp [differInSort, hstands hsb, hshape hsa, hobject.symm] at hsort
    · exact hunknown hmb.2.2 hsb
    · -- both are plain shapes, which merge
      cases a with
      | object tagA propsA =>
        cases b with
        | object tagB propsB =>
          obtain ⟨-, rfl⟩ := unit_subtype_object hv hva
          obtain ⟨-, rfl⟩ := unit_subtype_object hv hvb
          exact not_apart_plain_shapes hab
        | _ => simp [isObject] at hsb
      | _ => simp [isObject] at hsa

theorem not_unit_subtype_inter (hv : v.isUnit = true) {ms : List Ty} (hc : Canonical (.inter ms)) :
    h.subtype v (.inter ms) = false := by
  rw [Bool.eq_false_iff]
  intro hs
  have hall := (unit_subtype_inter_iff hv).1 hs
  obtain ⟨hlen, hmembers, hapart⟩ := hc.neat
  cases ms with
  | nil => simp at hlen
  | cons a ms =>
    cases ms with
    | nil => simp at hlen
    | cons b ms =>
      have hab : Apart a b := (List.pairwise_cons.1 hapart).1 b (by simp)
      exact not_both_above hv hab (hmembers a (by simp)) (hmembers b (by simp))
        (hall a (by simp)) (hall b (by simp))

/-- What can be above a unit type, unions apart: what stands for it, `unknown`, and shapes. -/
theorem above_unit (hv : v.isUnit = true) (hc : Canonical m) (hu : m.isUnion = false)
    (hs : h.subtype v m = true) : StandsFor m v ∨ m = .unknown ∨ m.isObject = true := by
  cases hi : m.isInter with
  | false => exact above_unit_plain hv hu hi hs
  | true =>
    cases m with
    | inter ms => simp [not_unit_subtype_inter hv hc] at hs
    | _ => simp [isInter] at hi

/-! ## Unions as they are built -/

theorem unit_subtype_alternative (hv : v.isUnit = true) (hx : Alternative x t)
    (hs : h.subtype v x = true) : h.subtype v t = true := by
  induction hx with
  | self _ _ => exact hs
  | member hm _ ih => exact (unit_subtype_union_iff hv).2 ⟨_, hm, ih⟩

/-- A unit type below a union is below one of its arguments. -/
theorem exists_of_unit_subtype_union (hv : v.isUnit = true)
    (hs : h.subtype v (h.union ts) = true) : ∃ t ∈ ts, h.subtype v t = true := by
  obtain ⟨m, hm, hvm⟩ := (unit_subtype_members hv).1 hs
  rcases of_mem_members_union hm with ⟨t, ht, halt⟩ | ⟨rfl, hboth⟩
  · exact ⟨t, ht, unit_subtype_alternative hv halt hvm⟩
  · -- the union is above `boolean` for having both values, of which this is one
    rcases above_unit_plain hv rfl rfl hvm with hstands | hm | hm
    · rcases hstands with hk | ⟨l, rfl, hbase⟩
      · exact absurd hk.symm (unit_key_ne hv rfl)
      · cases l with
        | bool b =>
          obtain ⟨t, ht, y, halt, hk⟩ := hboth b
          exact ⟨t, ht, unit_subtype_alternative hv halt (h.subtype_of_key_eq hk.symm)⟩
        | _ => simp [Literal.base] at hbase
    · simp at hm
    · simp [isObject] at hm

/-- A union is above a unit type that one of its alternatives is above, if all trees of that
alternative's key are. -/
theorem unit_subtype_union (hv : v.isUnit = true) (ht : t ∈ ts) (hx : Alternative x t)
    (hs : h.subtype v x = true)
    (hall : ∀ s ∈ ts, ∀ y, Alternative y s → y.key = x.key → h.subtype v y = true) :
    h.subtype v (h.union ts) = true := by
  rcases exists_mem_members_union (h := h) ht hx with hu | ⟨m, hm, hk | ⟨l, rfl, rfl⟩⟩
  · rw [hu]
    exact h.subtype_unknown v
  · refine (unit_subtype_members hv).2 ⟨m, hm, ?_⟩
    rcases of_mem_members_union hm with ⟨s, hs, halt⟩ | ⟨rfl, -⟩
    · exact hall s hs m halt hk
    · rwa [← eq_of_key_eq_atom (a := .boolean) (by simp [atoms]) hk.symm]
  · refine (unit_subtype_members hv).2 ⟨_, hm, ?_⟩
    rcases above_unit_plain hv rfl rfl hs with hstands | hm | hm
    · have hself : StandsFor l.base (.literal l) := .inr ⟨l, rfl, rfl⟩
      exact subtype_of_standsFor (hself.trans hstands)
    · simp at hm
    · simp [isObject] at hm

/-- What stands for a unit type does so whichever tree of its key a union keeps. -/
theorem unit_subtype_union_of_standsFor (hv : v.isUnit = true) (ht : t ∈ ts)
    (hx : Alternative x t) (hs : StandsFor x v) : h.subtype v (h.union ts) = true := by
  refine unit_subtype_union hv ht hx (subtype_of_standsFor hs) fun s _ y _ hk => ?_
  exact subtype_of_standsFor (StandsFor.trans (.inl hk) hs)

/-! ## Intersections with a type parameter -/

/-- Nothing plain but a type parameter is below one. -/
theorem isVar_of_subtype (hu : m.isUnion = false) (hi : m.isInter = false) (hn : m.isNever = false)
    (ht : t.isVar = true) (hs : h.subtype m t = true) : m.isVar = true := by
  cases t with
  | var name bound =>
    rw [subtype_eq, Bool.or_eq_true_iff, decide_eq_true_iff] at hs
    rcases hs with hk | hr
    · exact isVar_of_key_eq (a := .var name bound) rfl hk
    · cases m with
      | var _ _ => rfl
      | union _ => simp [isUnion] at hu
      | inter _ => simp [isInter] at hi
      | never => simp [isNever] at hn
      | _ => simp [Rules.subtypeRule, Rules.rightSubtype, Rules.plainSubtype] at hr
  | _ => simp [isVar] at ht

/-- Fusing keeps a type parameter among the members. -/
theorem exists_isVar_of_settled {ms ms' : List Ty} {result : Option (List Ty)}
    (hs : Rules.Settled h.answers ms result) (hresult : result = some ms')
    (hms : ∀ m ∈ ms, m.isMember = true ∧ m.isInter = false) (hvar : ∃ m ∈ ms, m.isVar = true) :
    ∃ m ∈ ms', m.isVar = true := by
  induction hs with
  | done _ =>
    cases hresult
    exact hvar
  | empty _ _ => simp at hresult
  | round hf _ ih =>
    refine ih hresult (hf.forall (fun a b t ha hb hc => combine_isMember ha hb hc) hms) ?_
    cases hf with
    | @fused before between after a b t heq hc =>
      subst heq
      obtain ⟨m, hm, hmvar⟩ := hvar
      have hma := isMember_iff.1 (hms a (by simp)).1
      have hmb := isMember_iff.1 (hms b (by simp)).1
      have hia := (hms a (by simp)).2
      have hib := (hms b (by simp)).2
      -- of two members that combine, one is below the other, or both are shapes
      have hinto (hab : a.isVar = true ∨ b.isVar = true) : t.isVar = true := by
        rw [Rules.run_combine, Ideal.run_answers_subtype, Ideal.run_answers_subtype] at hc
        split at hc
        · rename_i hsub
          obtain rfl : a = t := by simpa using hc
          exact hab.elim id fun hb => isVar_of_subtype hma.1 hia hma.2.1 hb hsub
        · split at hc
          · rename_i hsub
            obtain rfl : b = t := by simpa using hc
            exact hab.elim (fun ha => isVar_of_subtype hmb.1 hib hmb.2.1 ha hsub) id
          · split at hc
            · simp at hc
            · obtain ⟨tagA, propsA, tagB, propsB, -, -, rfl, rfl, -⟩ := Rules.mergeObjects_into _ hc
              simp [isVar] at hab
      rcases (by simpa using hm : m ∈ before ∨ m = a ∨ m ∈ between ∨ m = b ∨ m ∈ after) with
        hm | rfl | hm | rfl | hm
      · exact ⟨m, by simp [hm], hmvar⟩
      · exact ⟨t, by simp, hinto (.inl hmvar)⟩
      · exact ⟨m, by simp [hm], hmvar⟩
      · exact ⟨t, by simp, hinto (.inr hmvar)⟩
      · exact ⟨m, by simp [hm], hmvar⟩

/-- An intersection with a type parameter is above no unit type. -/
theorem not_unit_subtype_intersect (hv : v.isUnit = true) (ht : t ∈ ts) (hx : Conjunct x t)
    (hvar : x.isVar = true) : h.subtype v (h.intersect ts) = false := by
  generalize hn : spreadAll ts = n
  induction n using Nat.strongRecOn generalizing ts t x with
  | ind n ih =>
    subst hn
    rw [Bool.eq_false_iff, intersect_knot]
    intro hs
    have hnever : ¬ h.subtype v .never = true := by
      rw [subtype_never_iff]
      rintro rfl
      simp [isUnit] at hv
    -- the parameter is among what is combined, under its key
    have hmem {flat : List Ty} (hp : conjunctsAll ts = some flat) :
        ∃ y ∈ dedup flat, y.isVar = true := by
      obtain ⟨y, hy, hk⟩ := exists_mem_dedup (((parted_of_conjunctsAll hp).2 x).2 ⟨t, ht, hx⟩)
      exact ⟨y, hy, isVar_of_key_eq hvar hk⟩
    have hmet := Rules.intersectStep_met h.answers ts
    generalize (Rules.intersectStep h.answers ts).run = met at hs hmet
    cases hmet with
    | never _ _ => exact hnever hs
    | excluded _ _ _ => exact hnever hs
    | @spread flat us before after hp hflat =>
      -- it is beside every alternative, too, and these have less to spread
      obtain ⟨u, hu, hvu⟩ := exists_of_unit_subtype_union hv hs
      obtain ⟨u, hus, rfl⟩ := List.mem_map.1 hu
      obtain ⟨y, hy, hyvar⟩ := hmem hp
      have hle : spreadAll (dedup flat) ≤ spreadAll ts :=
        Nat.le_trans (Rules.spreadAll_le_of_sublist (dedup_sublist flat))
          (Rules.spreadAll_conjunctsAll hp)
      rw [hflat] at hy hle
      have hspread := le_greatest (f := spread) hus
      simp only [spreadAll_append, spreadAll_cons, spread_union] at hle
      have hlt : spreadAll (u :: (before ++ after)) < spreadAll ts := by
        simp only [spreadAll_append, spreadAll_cons]
        omega
      have hyin : y ∈ u :: (before ++ after) := by
        rcases (by simpa using hy : y ∈ before ∨ y = .union us ∨ y ∈ after) with hy | rfl | hy
        · simp [hy]
        · simp [isVar] at hyvar
        · simp [hy]
      have hself : Conjunct y y := by
        cases y with
        | var _ _ => exact .self rfl rfl
        | _ => simp [isVar] at hyvar
      rw [Ideal.run_answers_intersect, ih _ hlt hyin hself hyvar rfl] at hvu
      simp at hvu
    | @settled flat members hp hu hset =>
      -- it never combines, so it is among the members that are left
      have hplain : ∀ m ∈ dedup flat, m.isMember = true ∧ m.isInter = false := by
        intro m hm
        have hparted := parted_of_conjunctsAll hp
        obtain ⟨s, hs, hconj⟩ := (hparted.2 m).1 (mem_of_mem_dedup hm)
        refine ⟨isMember_iff.2 ⟨hu m hm, ?_, hconj.isUnknown⟩, hconj.isInter⟩
        cases m with
        | never => exact absurd hconj (hparted.1 s hs)
        | _ => rfl
      obtain ⟨y, hy, hyvar⟩ := exists_isVar_of_settled hset rfl hplain (hmem hp)
      have hno := not_unit_subtype_var (h := h) hv hyvar
      rcases Rules.interOf_cases h members with ⟨rfl, hrun⟩ | ⟨m, rfl, hrun⟩ | ⟨-, hrun⟩
      · simp at hy
      · obtain rfl := List.mem_singleton.1 hy
        rw [hrun, hno] at hs
        simp at hs
      · rw [hrun] at hs
        have := (unit_subtype_inter_iff hv).1 hs y (mem_sortByKey.2 hy)
        simp [hno] at this

/-! ## Atoms and their literals -/

/-- Where an atom has a property its literals have it, at the literal of an atom. -/
theorem propertyOf_literal (h : Hierarchy) (l : Literal) (name : Text) :
    h.propertyOf (.literal l) name = none ∧ h.propertyOf l.base name = none ∨
      ∃ k : Literal, h.propertyOf (.literal l) name = some { name, type := .literal k } ∧
        h.propertyOf l.base name = some { name, type := k.base } := by
  rw [propertyOf_knot, propertyOf_knot]
  cases l with
  | text value =>
    simp only [Rules.propertyStep, Literal.base]
    by_cases hname : (name == Rules.lengthName) = true
    · simp only [hname, if_true]
      exact .inr ⟨Rules.lengthLiteral value, rfl, rfl⟩
    · simp only [hname]
      exact .inl ⟨rfl, rfl⟩
  | number value | bool value => exact .inl ⟨rfl, rfl⟩

/-- A literal has the properties that its atom has. -/
theorem propsSubtype_literal {l : Literal} {props : List (Property Ty)}
    (hi : ∀ pb ∈ props, ∀ k : Literal, h.subtype k.base pb.type = true →
      h.subtype (.literal k) pb.type = true)
    (hp : (Rules.propsSubtype h.answers l.base props).run = true) :
    (Rules.propsSubtype h.answers (.literal l) props).run = true := by
  rw [Rules.propsSubtype_iff] at hp ⊢
  intro pb hpb
  have hp := hp pb hpb
  rw [Ideal.run_answers_propertyOf] at hp ⊢
  rcases propertyOf_literal h l pb.name with ⟨hnone, hnone'⟩ | ⟨k, hsome, hsome'⟩
  · simp only [hnone'] at hp
    simpa only [hnone] using hp
  · simp only [hsome', Ideal.run_answers_subtype] at hp
    simp only [hsome, Ideal.run_answers_subtype]
    exact ⟨hp.1, hp.2.1, hi pb hpb k hp.2.2⟩

theorem object_rule_of_base {l : Literal} {tag : String} {props : List (Property Ty)}
    (hs : (Rules.subtypeRule h.answers l.base (.object tag props)).run = true) :
    tag.isEmpty = true ∧ (Rules.propsSubtype h.answers l.base props).run = true := by
  have hobject : (Rules.objectSubtype h.answers l.base tag props).run = true := by
    cases l <;> exact hs
  have hnull : l.base ≠ .null ∧ l.base ≠ .undefined := by cases l <;> simp [Literal.base]
  rw [Rules.run_objectSubtype _ _ hnull.1 hnull.2, Bool.and_eq_true] at hobject
  refine ⟨?_, hobject.2⟩
  cases l <;> simpa [Rules.tagFits, Literal.base] using hobject.1

/-- What is above an atom is above its literals. -/
theorem literal_subtype_of_base {l : Literal} (hs : h.subtype l.base b = true) :
    h.subtype (.literal l) b = true := by
  induction b using Ty.parts_induction generalizing l with
  | step b ih =>
    have hunit : (Ty.literal l).isUnit = true := rfl
    by_cases hk : l.base.key = b.key
    · obtain rfl : b = l.base :=
        eq_of_key_eq_atom (base_mem_atoms l) hk.symm
      exact h.literal_subtype_base l
    rw [subtype_eq, decide_eq_false hk, Bool.false_or] at hs
    cases b with
    | unknown => exact h.subtype_unknown _
    | union bs =>
      have hany : ∃ m ∈ bs, h.subtype l.base m = true := by
        cases l <;> simpa [Rules.subtypeRule, Rules.rightSubtype, Literal.base] using hs
      obtain ⟨m, hm, hsub⟩ := hany
      exact (unit_subtype_union_iff hunit).2 ⟨m, hm, ih m hm hsub⟩
    | inter bs =>
      have hall : ∀ m ∈ bs, h.subtype l.base m = true := by
        cases l <;> simpa [Rules.subtypeRule, Literal.base] using hs
      exact (unit_subtype_inter_iff hunit).2 fun m hm => ih m hm (hall m hm)
    | object tag props =>
      obtain ⟨htag, hprops⟩ := object_rule_of_base hs
      have hprops := propsSubtype_literal (fun pb hpb k hk =>
        ih pb.type (List.mem_map_of_mem hpb) hk) hprops
      refine h.subtype_of_rule ?_
      show (Rules.objectSubtype h.answers (.literal l) tag props).run = true
      rw [Rules.run_objectSubtype _ _ (by simp) (by simp), htag, Bool.true_or, Bool.true_and]
      exact hprops
    | _ =>
      cases l <;> simp [Rules.subtypeRule, Rules.rightSubtype, Rules.plainSubtype, Literal.base] at hs

/-! ## What is above a union, or `unknown` -/

/-- The members of a type that is below another, and does not have its key, are below it. -/
theorem subtype_of_mem_members {u m : Ty} (hk : u.key ≠ b.key) (hs : h.subtype u b = true)
    (hm : m ∈ u.members) : h.subtype m b = true := by
  cases u with
  | union ms =>
    rw [subtype_eq, decide_eq_false hk, Bool.false_or] at hs
    cases b with
    | unknown => exact h.subtype_unknown m
    | never => simp [Rules.subtypeRule] at hs
    | _ =>
      rw [Rules.subtypeRule] at hs
      · simp only [Ideal.run_allM, Ideal.run_answers_subtype, List.all_eq_true] at hs
        exact hs m hm
      all_goals simp
  | never => simp [members] at hm
  | _ =>
    obtain rfl := List.mem_singleton.1 hm
    exact hs

/-- Nothing but `unknown` is above `unknown`. -/
theorem eq_unknown_of_subtype (hs : h.subtype .unknown b = true) : b = .unknown := by
  rw [subtype_eq, Bool.or_eq_true_iff, decide_eq_true_iff] at hs
  rcases hs with hk | hr
  · exact eq_of_key_eq_atom (by simp [atoms]) hk.symm
  · cases b with
    | unknown => rfl
    | _ => simp [Rules.subtypeRule] at hr

end Hierarchy
end FlowTyping
