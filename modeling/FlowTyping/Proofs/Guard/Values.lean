import FlowTyping.Proofs.Guard.Coverage
import FlowTyping.Proofs.Relation.Units

/-!
# Which values a split keeps

A single value of a type should be on the side of a split on which the guard puts it. The rules go by
what an alternative is on the outside, and a text, a number or a truth value that is there by an
object shape alone is not what the shape is on the outside: it is lost where the rule sends the shape
the other way.

* **`Guard.Judges`** — what a guard answers for a single value.
* **`Guard.Misplaces`** — the guard sends object shapes away from the value's side.
* **`Guard.narrow_keeps_value_iff`** — a value is lost exactly where its guard misplaces it and every
  alternative above it is an object shape, unless the whole type is kept anyway.
-/

namespace FlowTyping

open Ty

/-- The side of a split that belongs to an answer. -/
def Split.side (s : Split) (answer : Bool) : Ty := if answer then s.yes else s.no

/-- Whether a single value passes as a condition. -/
def Ty.passes : Ty → Bool
  | .literal l => !l.falsy
  | _ => false

namespace Guard

/-- What a guard answers for a single value: by the tag of the value, by whether it passes, or by
whether it is the value it is compared with. -/
inductive Judges : Guard → Ty → Bool → Prop where
  | typeOf (x : String) {tag : String} (v : Ty) (ht : tag ∈ typeofTags) :
    Judges (.typeOf x tag) v (v.typeofTag == tag)
  | truthy (x : String) (v : Ty) : Judges (.truthy x) v v.passes
  | equal {op : EqOp} (x : String) (v : Ty) (hop : op.loose = false) :
    Judges (.equality op { var := x } (.type v)) v !op.negated
  | unequal {op : EqOp} (x : String) {v r : Ty} (hop : op.loose = false) (hr : r.isUnit = true)
    (hne : v.same r = false) : Judges (.equality op { var := x } (.type r)) v op.negated

/-- The guard sends object shapes to the side that a value is not on. -/
def Misplaces : Guard → Ty → Prop
  | .typeOf _ tag, .literal l => tag = Text.ofString l.base.kind ∨ tag = Text.ofString "object"
  | .truthy _, .literal l => l.falsy = true
  | _, _ => False

variable {h : Hierarchy} {current v m : Ty}

/-! ## Values in unions of alternatives -/

/-- A value stays in a union of some alternatives with one that is above it. Of shapes it matters that
no other tree takes their place. -/
theorem unit_subtype_kept (hv : v.isUnit = true) (hc : Canonical current) (side : Ty → Ty)
    (hm : m ∈ current.members) (hvm : h.subtype v m = true) (hside : side m = m)
    (hshape : m.isObject = true → ∀ s ∈ current.members, side s = s ∨ side s = .never) :
    h.subtype v (h.union (current.members.map side)) = true := by
  have halt := hc.flat.alternative hm
  have hmem : m ∈ current.members.map side := List.mem_map.2 ⟨m, hm, hside⟩
  have hself : Alternative m m := .self halt.isUnion halt.isNever
  rcases Hierarchy.above_unit hv (hc.member hm) halt.isUnion hvm with hstands | rfl | hobject
  · exact Hierarchy.unit_subtype_union_of_standsFor hv hmem hself hstands
  · rw [Hierarchy.union_unknown hmem hself]
    exact h.subtype_unknown v
  · refine Hierarchy.unit_subtype_union hv hmem hself hvm fun s hs y hy hk => ?_
    obtain ⟨s, hsm, rfl⟩ := List.mem_map.1 hs
    rcases hshape hobject s hsm with heq | heq
    · rw [heq, Alternative.iff_of_not_union (hc.flat.alternative hsm).isUnion] at hy
      obtain rfl := hy.1
      rwa [hc.eq_of_mem hsm hm hk]
    · rw [heq, Alternative.iff_of_not_union rfl] at hy
      simp [isNever] at hy

/-! ## Tags -/

@[simp] theorem typeofTag_literal (l : Literal) : (Ty.literal l).typeofTag = l.base.kind := rfl

@[simp] theorem typeofTag_null : Ty.null.typeofTag = "object" := rfl

@[simp] theorem typeofTag_undefined : Ty.undefined.typeofTag = "undefined" := rfl

@[simp] theorem typeofTag_unknown : Ty.unknown.typeofTag = "" := rfl

@[simp] theorem typeofTag_object (tag : String) (props : List (Property Ty)) :
    (Ty.object tag props).typeofTag = "object" := rfl

/-- The sides that a member goes to by what `typeof` answers. -/
def typeofSides (h : Hierarchy) (tag : String) (m : Ty) : Ty × Ty :=
  if m.typeofTag = tag then (m, .never)
  else if m.typeofTag.isEmpty then
    match (typeofType tag : Ideal h (Option Ty)).run with
    | some all => (h.meet m all, m)
    | none => (m, m)
  else (.never, m)

theorem side_splitTypeof {tag : String} (ht : tag ∈ typeofTags) (answer : Bool) :
    (splitTypeof tag current : Ideal h Split).run.side answer =
      h.union (current.members.map fun m =>
        if answer then (typeofSides h tag m).1 else (typeofSides h tag m).2) := by
  have hfind : typeofTags.find? (fun known => Text.ofString known = Text.ofString tag) = some tag := by
    simp only [typeofTags, List.mem_cons, List.not_mem_nil, or_false] at ht
    rcases ht with rfl | rfl | rfl | rfl | rfl | rfl <;> decide
  have hmember (m : Ty) : (do
      let own := m.typeofTag
      if own = tag then return (m, .never)
      else if own.isEmpty then
        match ← typeofType tag with
        | some all => return (← TypeStore.meet m all, m)
        | none => return (m, m)
      else return (.never, m) : Ideal h (Ty × Ty)).run = typeofSides h tag m := by
    simp only [typeofSides, Ideal.run_ite, Ideal.run_pure, Ideal.run_bind]
    split
    · rfl
    · split
      · cases (typeofType tag : Ideal h (Option Ty)).run <;> rfl
      · rfl
  rw [splitTypeof, hfind]
  simp only [run_splitBy]
  cases answer
  · simp only [Split.side, Bool.false_eq_true, if_false]
    exact congrArg h.union (List.map_congr_left fun m _ => congrArg Prod.snd (hmember m))
  · simp only [Split.side, if_true]
    exact congrArg h.union (List.map_congr_left fun m _ => congrArg Prod.fst (hmember m))

theorem firstTag_of_mem {ms : List Ty} (hms : firstTag ms = "") (hm : m ∈ ms) :
    m.typeofTag = "" := by
  induction ms with
  | nil => simp at hm
  | cons t ts ih =>
    rw [firstTag] at hms
    split at hms
    · rename_i htag
      rcases List.mem_cons.1 hm with rfl | hm
      · exact htag
      · exact ih hms hm
    · contradiction

theorem kind_ne_empty (l : Literal) : l.base.kind ≠ "" := by
  cases l <;> simp [Literal.base, kind]

/-- Only `unknown` and what is made of type parameters has no tag. -/
theorem exists_isVar_of_no_tag (hc : Canonical m) (hu : m.isUnion = false) (hn : m.isNever = false)
    (htag : m.typeofTag = "") : m = .unknown ∨ ∃ x, Conjunct x m ∧ x.isVar = true := by
  have hplain {m : Ty} (hm : m.isMember = true ∧ m.isInter = false) (htag : m.typeofTag = "") :
      m.isVar = true := by
    cases m with
    | var _ _ => rfl
    | inter _ => simp [isInter] at hm
    | never | unknown | union _ => simp [isMember, isNever, isUnknown, isUnion] at hm
    | literal l => exact absurd htag (kind_ne_empty l)
    | _ => simp [typeofTag] at htag
  have hvar {x : Ty} (hx : x.isVar = true) : Conjunct x x := by
    cases x with
    | var _ _ => exact .self rfl rfl
    | _ => simp [isVar] at hx
  cases m with
  | unknown => exact .inl rfl
  | inter ms =>
    obtain ⟨hlen, hmembers, -⟩ := hc.neat
    obtain ⟨x, hx⟩ : ∃ x, x ∈ ms := List.exists_mem_of_length_pos (by omega)
    have hxvar := hplain (hmembers x hx) (firstTag_of_mem (show firstTag ms = "" from htag) hx)
    exact .inr ⟨x, .member hx (hvar hxvar), hxvar⟩
  | never => simp [isNever] at hn
  | union _ => simp [isUnion] at hu
  | _ =>
    have hself := hplain ⟨rfl, rfl⟩ htag
    exact .inr ⟨_, hvar hself, hself⟩

theorem typeofTag_of_standsFor (hv : v.isUnit = true) (hm : StandsFor m v) :
    m.typeofTag = v.typeofTag := by
  rcases hm with hk | ⟨l, rfl, rfl⟩
  · cases v with
    | literal l =>
      obtain ⟨l', rfl, hbase⟩ := literal_of_key_eq hk
      rw [typeofTag_literal, typeofTag_literal, hbase]
    | null | undefined => rw [eq_of_key_eq_atom (by simp [atoms]) hk]
    | _ => simp [isUnit] at hv
  · cases l <;> rfl

theorem typeofTag_of_isObject (hm : m.isObject = true) : m.typeofTag = "object" := by
  cases m with
  | object tag props => exact typeofTag_object tag props
  | _ => simp [isObject] at hm

theorem typeofTag_of_unit_ne (hv : v.isUnit = true) :
    v.typeofTag ≠ "" ∧ v.typeofTag ≠ "function" ∧ (v.isLiteral = true → v.typeofTag ≠ "object") := by
  cases v with
  | literal l => cases l <;> simp [Literal.base, kind]
  | null | undefined => simp [isLiteral]
  | _ => simp [isUnit] at hv

/-- What `unknown` has in common with a type has the values that the type has. -/
theorem holds_meet_unknown (hv : v.isUnit = true) {all x : Ty} (hx : x ∈ all.members)
    (hs : StandsFor x v) : (h.meet .unknown all).Holds v := by
  obtain ⟨hconj, hu, -⟩ := Hierarchy.standsFor_plain hv hs
  rcases Hierarchy.eq_or_union_of_mem hx with rfl | ⟨ms, rfl, hx⟩
  · have hflat : conjunctsAll [.unknown, all] = some [all] := by
      simp [conjunctsAll, hconj, conjuncts]
    rw [Hierarchy.meet, Hierarchy.intersect_single hflat rfl hu]
    exact Hierarchy.holds_of_standsFor hv hs
  · have hflat : conjunctsAll [.unknown, .union ms] = some [.union ms] := by
      simp [conjunctsAll, conjuncts]
    have hfirst : firstUnion? (dedup [.union ms]) = some (ms, []) := rfl
    rw [Hierarchy.meet, Hierarchy.intersect_spread hflat hfirst]
    refine Hierarchy.holds_union (Hierarchy.intersect_flat h [x]) (List.mem_map_of_mem hx) ?_
    rw [Hierarchy.intersect_single (Hierarchy.conjunctsAll_singleton hconj) rfl hu]
    exact Hierarchy.holds_of_standsFor hv hs

/-- The type of all values of a tag has each value of the tag. -/
theorem typeofType_of_unit (h : Hierarchy) (hv : v.isUnit = true) :
    ∃ all, (typeofType v.typeofTag : Ideal h (Option Ty)).run = some all ∧
      ∃ x ∈ all.members, StandsFor x v := by
  cases v with
  | literal l =>
    refine ⟨l.base, ?_, l.base, ?_, .inr ⟨l, rfl, rfl⟩⟩
    · cases l <;> simp [Literal.base, kind, typeofType]
    · cases l <;> simp [Literal.base, members]
  | undefined =>
    exact ⟨.undefined, by simp [typeofType], .undefined, by simp [members], .inl rfl⟩
  | null =>
    refine ⟨h.union [.null, .object "" []], by simp [typeofType, TypeStore.sortProps], ?_⟩
    have hmem : Ty.null ∈ [Ty.null, .object "" []] := by simp
    rcases Hierarchy.exists_mem_members_union (h := h) hmem (.self rfl rfl) with
      hu | ⟨x, hx, hk | ⟨l, hl, -⟩⟩
    · have hmem : Ty.unknown ∈ (h.union [.null, .object "" []]).members := by simp [hu, members]
      rcases Hierarchy.of_mem_members_union hmem with ⟨t, ht, halt⟩ | ⟨heq, -⟩
      · rcases (by simpa using ht : t = .null ∨ t = .object "" []) with rfl | rfl
        · simp [Alternative.iff_of_not_union (t := .null) rfl] at halt
        · simp [Alternative.iff_of_not_union (t := .object "" []) rfl] at halt
      · simp at heq
    · exact ⟨x, hx, .inl hk⟩
    · simp at hl
  | _ => simp [isUnit] at hv

/-- All alternatives above the value are object shapes. -/
def OnlyShapes (h : Hierarchy) (v current : Ty) : Prop :=
  ∀ m ∈ current.members, h.subtype v m = true → m.isObject = true

/-- A value that some alternative has otherwise has one that stands for it, or `unknown`. -/
theorem exists_of_not_onlyShapes (hv : v.isUnit = true) (hc : Canonical current)
    (hno : ¬ OnlyShapes h v current) :
    ∃ m ∈ current.members, h.subtype v m = true ∧ m.isObject = false ∧
      (StandsFor m v ∨ m = .unknown) := by
  obtain ⟨m, hm, hvm, hobject⟩ : ∃ m ∈ current.members, h.subtype v m = true ∧
      m.isObject = false := by simpa [OnlyShapes] using hno
  refine ⟨m, hm, hvm, hobject, ?_⟩
  rcases Hierarchy.above_unit hv (hc.member hm) (hc.flat.alternative hm).isUnion hvm with
    hstands | hunknown | hshape
  · exact .inl hstands
  · exact .inr hunknown
  · simp [hobject] at hshape

/-- A literal with only shapes above it has one. -/
theorem OnlyShapes.exists (hv : v.isUnit = true) (hs : h.subtype v current = true)
    (honly : OnlyShapes h v current) :
    ∃ m ∈ current.members, h.subtype v m = true ∧ m.isObject = true ∧ v.isLiteral = true := by
  obtain ⟨m, hm, hvm⟩ := (Hierarchy.unit_subtype_members hv).1 hs
  have hobject := honly m hm hvm
  refine ⟨m, hm, hvm, hobject, ?_⟩
  cases m with
  | object tag props => exact (Hierarchy.unit_subtype_object hv hvm).1
  | _ => simp [isObject] at hobject

theorem typeofSides_of_eq {tag : String} (hm : m.typeofTag = tag) :
    typeofSides h tag m = (m, .never) := by
  simp [typeofSides, hm]

theorem typeofSides_of_ne {tag : String} (hm : m.typeofTag ≠ tag) (he : m.typeofTag ≠ "") :
    typeofSides h tag m = (.never, m) := by
  simp [typeofSides, hm, he]

/-- The failing side keeps a member or drops it. -/
theorem typeofSides_snd (tag : String) (m : Ty) :
    (typeofSides h tag m).2 = m ∨ (typeofSides h tag m).2 = .never := by
  rw [typeofSides]
  split
  · exact .inr rfl
  · split
    · cases (typeofType tag : Ideal h (Option Ty)).run <;> exact .inl rfl
    · exact .inl rfl

/-- The passing side of `unknown` has the values of the tag. -/
theorem unit_subtype_typeofSides_unknown (hv : v.isUnit = true) :
    h.subtype v (h.union [(typeofSides h v.typeofTag .unknown).1]) = true := by
  obtain ⟨all, hall, x, hx, hstands⟩ := typeofType_of_unit h hv
  have hne : Ty.unknown.typeofTag ≠ v.typeofTag := by
    simpa using (typeofTag_of_unit_ne hv).1.symm
  have hmember : v.isMember = true := by
    cases v <;> first | rfl | simp [isUnit] at hv
  rw [typeofSides, if_neg hne, if_pos (by simp), hall]
  refine Hierarchy.subtype_of_holds hmember ?_
  exact Hierarchy.holds_union (Hierarchy.intersect_flat h [.unknown, all])
    (List.mem_singleton.2 rfl) (holds_meet_unknown hv hx hstands)

/-- What a member without tag has of a tag is above no value, unless the member is `unknown`. -/
theorem not_unit_subtype_typeofSides (hv : v.isUnit = true) (hc : Canonical m)
    (hu : m.isUnion = false) (hn : m.isNever = false) (hk : m ≠ .unknown) {tag : String}
    (htag : m.typeofTag = "") (ht : tag ∈ typeofTags) :
    h.subtype v (typeofSides h tag m).1 = false := by
  obtain ⟨x, hx, hvar⟩ := (exists_isVar_of_no_tag hc hu hn htag).resolve_left hk
  have hne : m.typeofTag ≠ tag := by
    rintro rfl
    simp [htag, typeofTags] at ht
  rw [typeofSides, if_neg hne, if_pos (by simp [htag])]
  cases (typeofType tag : Ideal h (Option Ty)).run with
  | none =>
    rw [Bool.eq_false_iff]
    intro hs
    have hmember := Hierarchy.above_unit hv hc hu hs
    rcases hmember with hstands | hunknown | hobject
    · rw [typeofTag_of_standsFor hv hstands] at htag
      exact (typeofTag_of_unit_ne hv).1 htag
    · exact hk hunknown
    · rw [typeofTag_of_isObject hobject] at htag
      simp at htag
  | some all => exact Hierarchy.not_unit_subtype_intersect hv (by simp) hx hvar

theorem misplaces_typeOf_iff (x tag : String) :
    (Guard.typeOf x tag).Misplaces v ↔
      v.isLiteral = true ∧ (v.typeofTag = tag ∨ tag = "object") := by
  have hinj {s t : String} : Text.ofString s = Text.ofString t ↔ s = t := by
    simp [Text.ofString, String.toByteArray_inj]
  cases v with
  | literal l => simp [Misplaces, isLiteral, hinj, eq_comm]
  | _ => simp [Misplaces, isLiteral]

/-- A `typeof` test keeps a value unless it misplaces the shapes that alone are above it. -/
theorem splitTypeof_keeps_iff (hv : v.isUnit = true) (hc : Canonical current)
    (hs : h.subtype v current = true) (x : String) {tag : String} (ht : tag ∈ typeofTags) :
    h.subtype v ((splitTypeof tag current : Ideal h Split).run.side (v.typeofTag == tag)) = true ↔
      ¬ ((Guard.typeOf x tag).Misplaces v ∧ OnlyShapes h v current) := by
  obtain ⟨hempty, -, hobject⟩ := typeofTag_of_unit_ne hv
  rw [side_splitTypeof ht, misplaces_typeOf_iff]
  constructor
  · -- a member that is left above the value is a shape, and so it went to the side of `object`
    rintro hkept ⟨⟨hlit, hmis⟩, honly⟩
    obtain ⟨y, hy, hvy⟩ := Hierarchy.exists_of_unit_subtype_union hv hkept
    obtain ⟨m, hm, rfl⟩ := List.mem_map.1 hy
    have halt := hc.flat.alternative hm
    have hshape (hvm : h.subtype v m = true) : m.typeofTag = "object" :=
      typeofTag_of_isObject (honly m hm hvm)
    have hnever : h.subtype v .never = false :=
      Bool.eq_false_iff.2 fun hs => by simp [h.subtype_never_iff.1 hs, isUnit] at hv
    -- the member has the tag that is asked for, or none that is known, or another one
    by_cases hown : m.typeofTag = tag
    · rw [typeofSides_of_eq hown] at hvy
      by_cases hans : v.typeofTag = tag
      · rw [if_pos (by simpa using hans)] at hvy
        exact hobject hlit (hans.trans (hown.symm.trans (hshape hvy)))
      · simp [hans, hnever] at hvy
    · by_cases hnone : m.typeofTag = ""
      · have hno (hvm : h.subtype v m = true) : False := by
          simp [hshape hvm] at hnone
        by_cases hans : v.typeofTag = tag
        · have hk : m ≠ .unknown := by
            rintro rfl
            exact hno (h.subtype_unknown v)
          rw [if_pos (by simpa using hans), not_unit_subtype_typeofSides hv (hc.member hm)
            halt.isUnion halt.isNever hk hnone ht] at hvy
          simp at hvy
        · rw [if_neg (by simpa using hans)] at hvy
          rcases typeofSides_snd (h := h) tag m with heq | heq <;> rw [heq] at hvy
          · exact hno hvy
          · simp [hnever] at hvy
      · rw [typeofSides_of_ne hown hnone] at hvy
        by_cases hans : v.typeofTag = tag
        · simp [hans, hnever] at hvy
        · rw [if_neg (by simpa using hans)] at hvy
          exact hown ((hshape hvy).trans (hmis.resolve_left hans).symm)
  · intro hmis
    by_cases honly : OnlyShapes h v current
    · -- only shapes are above the value, and they go where the value goes
      obtain ⟨m, hm, hvm, hshape, hlit⟩ := honly.exists hv hs
      have hne : ¬ (v.typeofTag = tag ∨ tag = "object") := fun hor => hmis ⟨⟨hlit, hor⟩, honly⟩
      have hans : v.typeofTag ≠ tag := fun heq => hne (.inl heq)
      have htag : m.typeofTag = "object" := typeofTag_of_isObject hshape
      simp only [beq_eq_false_iff_ne.2 hans, Bool.false_eq_true, if_false]
      refine unit_subtype_kept hv hc _ hm hvm ?_ fun _ s _ => typeofSides_snd tag s
      rw [typeofSides_of_ne (by rw [htag]; exact fun heq => hne (.inr heq.symm)) (by simp [htag])]
    · obtain ⟨m, hm, hvm, hnot, hstands | rfl⟩ := exists_of_not_onlyShapes hv hc honly
      · -- a member that stands for the value has its tag, and goes with it
        have hown := typeofTag_of_standsFor hv hstands
        refine unit_subtype_kept hv hc _ hm hvm ?_ (by simp [hnot])
        by_cases hans : v.typeofTag = tag
        · simp [hans, typeofSides_of_eq (hown.trans hans)]
        · simp [hans, typeofSides_of_ne (h := h) (m := m) (hown ▸ hans) (hown ▸ hempty)]
      · by_cases hans : v.typeofTag = tag
        · subst hans
          obtain rfl : current = .unknown := by
            rcases Hierarchy.eq_or_union_of_mem hm with rfl | ⟨ms, rfl, hmem⟩
            · rfl
            · simpa [isMember, isUnknown] using hc.flat _ hmem
          simpa [members] using unit_subtype_typeofSides_unknown hv
        · refine unit_subtype_kept hv hc _ hm hvm ?_ (by simp [isObject])
          have : Ty.unknown.typeofTag ≠ tag := by
            rintro rfl
            simp [typeofTags] at ht
          rw [if_neg (by simpa using hans), typeofSides, if_neg this, if_pos (by simp)]
          cases (typeofType tag : Ideal h (Option Ty)).run <;> rfl

/-! ## Conditions on the bare variable -/

theorem side_splitTruthy (answer : Bool) :
    (splitTruthy current : Ideal h Split).run.side answer =
      h.union (current.members.map fun m =>
        if (if answer then m.truthiness.1 else m.truthiness.2) then m else .never) := by
  rw [splitTruthy, run_splitBy]
  cases answer <;> rfl

/-- A value may go where it goes as a condition, by what stands for it. -/
theorem truthiness_of_standsFor (hv : v.isUnit = true) (hm : StandsFor m v)
    (hone : m.key = v.key → m = v) :
    (if v.passes then m.truthiness.1 else m.truthiness.2) = true := by
  rcases hm with hk | ⟨l, rfl, rfl⟩
  · obtain rfl := hone hk
    cases m with
    | literal l => cases hl : l.falsy <;> simp [passes, truthiness, hl]
    | null | undefined => simp [passes, truthiness]
    | _ => simp [isUnit] at hv
  · cases l <;> simp [Literal.base, truthiness]

/-- A condition keeps a value unless it fails and shapes alone are above it. -/
theorem splitTruthy_keeps_iff (hv : v.isUnit = true) (hc : Canonical current)
    (hs : h.subtype v current = true) (hone : ∀ m ∈ current.members, m.key = v.key → m = v)
    (x : String) :
    h.subtype v ((splitTruthy current : Ideal h Split).run.side v.passes) = true ↔
      ¬ ((Guard.truthy x).Misplaces v ∧ OnlyShapes h v current) := by
  have hmis : (Guard.truthy x).Misplaces v ↔ v.isLiteral = true ∧ v.passes = false := by
    cases v <;> simp [Misplaces, isLiteral, passes]
  have htruthy {m : Ty} (hm : m.isObject = true) : m.truthiness = (true, false) := by
    cases m with
    | object _ _ => simp [truthiness]
    | _ => simp [isObject] at hm
  rw [side_splitTruthy, hmis]
  constructor
  · -- every shape passes, so none is left where the value fails
    rintro hkept ⟨⟨-, hfails⟩, honly⟩
    obtain ⟨y, hy, hvy⟩ := Hierarchy.exists_of_unit_subtype_union hv hkept
    obtain ⟨m, hm, rfl⟩ := List.mem_map.1 hy
    rw [hfails] at hvy
    cases hside : m.truthiness.2 with
    | true =>
      have hvm : h.subtype v m = true := by simpa [hside] using hvy
      simp [htruthy (honly m hm hvm)] at hside
    | false =>
      have hnever : h.subtype v .never = true := by simpa [hside] using hvy
      simp [h.subtype_never_iff.1 hnever, isUnit] at hv
  · intro hmis
    -- shapes alone are above the value and it passes, as they do, or a member stands for it
    by_cases honly : OnlyShapes h v current
    · obtain ⟨m, hm, hvm, hshape, hlit⟩ := honly.exists hv hs
      have hpasses : v.passes = true := by
        cases hp : v.passes with
        | true => rfl
        | false => exact absurd ⟨⟨hlit, hp⟩, honly⟩ hmis
      refine unit_subtype_kept hv hc _ hm hvm ?_ fun _ s _ => ?_
      · simp [hpasses, htruthy hshape]
      · cases s.truthiness.1 <;> simp [hpasses]
    · obtain ⟨m, hm, hvm, hnot, hstands⟩ := exists_of_not_onlyShapes hv hc honly
      refine unit_subtype_kept hv hc _ hm hvm ?_ (by simp [hnot])
      rw [if_pos]
      rcases hstands with hstands | rfl
      · exact truthiness_of_standsFor hv hstands (hone m hm)
      · simp [truthiness]

/-! ## Comparisons with a single value -/

/-- What is above a value meets the value in it. -/
theorem standsFor_meet_above (hv : v.isUnit = true) (hc : Canonical m) (hu : m.isUnion = false)
    (hvm : h.subtype v m = true) : StandsFor (h.meet m v) v := by
  have hconj := Hierarchy.conjuncts_of_unit hv
  rcases Hierarchy.above_unit hv hc hu hvm with hstands | rfl | hshape
  · exact (Hierarchy.standsFor_meet hv hstands).1
  · have hflat : conjunctsAll [.unknown, v] = some [v] := by simp [conjunctsAll, hconj, conjuncts]
    rw [Hierarchy.meet, Hierarchy.intersect_single hflat rfl (Hierarchy.isUnion_of_unit hv)]
    exact .inl rfl
  · cases m with
    | object tag props =>
      have hk : (Ty.object tag props).key ≠ v.key := (Hierarchy.unit_key_ne hv rfl).symm
      -- a shape is below no value, so the value takes the place of both
      have hno : h.subtype (.object tag props) v = false := by
        rw [Hierarchy.subtype_eq, decide_eq_false hk]
        cases v with
        | literal _ | null | undefined =>
          simp [Rules.subtypeRule, Rules.rightSubtype, Rules.plainSubtype]
        | _ => simp [isUnit] at hv
      rw [Hierarchy.meet_into (t := v) rfl hconj hk rfl (Hierarchy.isUnion_of_unit hv) (by
        rw [Rules.run_combine, Ideal.run_answers_subtype, Ideal.run_answers_subtype, hno, hvm]
        rfl)]
      exact .inl rfl
    | _ => simp [isObject] at hshape

/-- A type meets a value of it in the value. -/
theorem unit_subtype_meet (hv : v.isUnit = true) (hc : Canonical current)
    (hs : h.subtype v current = true) : h.subtype v (h.meet current v) = true := by
  obtain ⟨m, hm, hvm⟩ := (Hierarchy.unit_subtype_members hv).1 hs
  have hstands := standsFor_meet_above hv (hc.member hm) (hc.flat.alternative hm).isUnion hvm
  rcases Hierarchy.eq_or_union_of_mem hm with rfl | ⟨ms, rfl, hmem⟩
  · exact Hierarchy.subtype_of_standsFor hstands
  · obtain ⟨-, hu, hn⟩ := Hierarchy.standsFor_plain hv hstands
    have hne : (Ty.union ms).key ≠ v.key := (Hierarchy.unit_key_ne hv rfl).symm
    rw [Hierarchy.meet, Hierarchy.intersect_spread
      (Hierarchy.conjunctsAll_pair (a := .union ms) rfl (Hierarchy.conjuncts_of_unit hv))
      (by rw [Hierarchy.dedup_pair, if_neg hne]; rfl)]
    exact Hierarchy.unit_subtype_union_of_standsFor hv (List.mem_map_of_mem hmem) (.self hu hn)
      hstands

theorem mem_keptOf {units : List Ty} {s : Ty} (hs : s ∈ keptOf units m) :
    s = m ∨ s.isLiteral = true := by
  rw [keptOf.eq_def] at hs
  split at hs
  · simp at hs
  · split at hs
    · rcases (by simpa using List.mem_of_mem_filter hs : s = .literal (.bool true) ∨
        s = .literal (.bool false)) with rfl | rfl <;> exact .inr rfl
    · exact .inl (by simpa using hs)

/-- A strict comparison has its meeting part on the side of its answer. -/
theorem side_splitEquality {op : EqOp} (hop : op.loose = false) (r current : Ty) (answer : Bool) :
    (splitEquality op none r current : Ideal h Split).run.side answer =
      if answer != op.negated then h.meet current r else (without current r : Ideal h Ty).run := by
  rw [run_splitEquality, looseRight, hop, Bool.false_and]
  cases answer <;> cases op.negated <;> rfl

/-- Leaving one value out leaves the others in. -/
theorem unit_subtype_without (hv : v.isUnit = true) (hc : Canonical current)
    (hs : h.subtype v current = true) {r : Ty} (hr : r.isUnit = true) (hne : v.same r = false) :
    h.subtype v (without current r : Ideal h Ty).run = true := by
  have hrm : r.members = [r] :=
    members_of_not_union (Hierarchy.isUnion_of_unit hr) (Hierarchy.isNever_of_unit hr)
  have hkey {x : Ty} (hx : x.isUnit = false ∨ x.key = v.key) : r.same x = false := by
    rw [Bool.eq_false_iff, ne_eq, same_iff]
    intro hk
    rcases hx with hx | hx
    · exact Hierarchy.unit_key_ne hr hx hk
    · rw [Bool.eq_false_iff, ne_eq, same_iff] at hne
      exact hne (hx.symm.trans hk.symm)
  -- nothing but `boolean` is taken apart, so what is not the value left out stays whole
  have hkept {x : Ty} (hx : x.isUnit = false ∨ x.key = v.key) (hb : x ≠ .boolean) :
      keptOf [r] x = [x] := by
    rw [keptOf.eq_def, if_neg (by simp [hkey hx])]
    cases x with
    | boolean => exact absurd rfl hb
    | _ => rfl
  rw [run_without, hrm, if_pos (by simp [hr])]
  obtain ⟨m, hm, hvm⟩ := (Hierarchy.unit_subtype_members hv).1 hs
  have halt := hc.flat.alternative hm
  have hself : Alternative m m := .self halt.isUnion halt.isNever
  have hmem {x : Ty} (hx : x ∈ keptOf [r] m) : x ∈ current.members.flatMap (keptOf [r]) :=
    List.mem_flatMap.2 ⟨m, hm, hx⟩
  rcases Hierarchy.above_unit hv (hc.member hm) halt.isUnion hvm with hstands | rfl | hshape
  · by_cases hb : m = .boolean
    · -- `boolean` is taken apart, and the value is one of its two
      subst hb
      rcases hstands with hk | ⟨l, rfl, hbase⟩
      · exact absurd hk.symm (Hierarchy.unit_key_ne hv rfl)
      · cases l with
        | bool b =>
          refine Hierarchy.unit_subtype_union_of_standsFor hv (t := .literal (.bool b)) (hmem ?_)
            (.self rfl rfl) (.inl rfl)
          rw [keptOf, if_neg (by simp [hkey (x := .boolean) (.inl rfl)]), List.mem_filter]
          exact ⟨by cases b <;> simp, by simp [hkey (x := .literal (.bool b)) (.inr rfl)]⟩
        | _ => simp [Literal.base] at hbase
    · have hx : m.isUnit = false ∨ m.key = v.key := by
        rcases hstands with hk | ⟨l, rfl, rfl⟩
        · exact .inr hk
        · exact .inl (by cases l <;> rfl)
      exact Hierarchy.unit_subtype_union_of_standsFor hv (hmem (by simp [hkept hx hb])) hself hstands
  · have hunknown := hkept (x := .unknown) (.inl rfl) (by simp)
    rw [Hierarchy.union_unknown (hmem (x := .unknown) (by simp [hunknown])) hself]
    exact h.subtype_unknown v
  · have hplain : m.isUnit = false ∧ m ≠ .boolean := by
      cases m <;> simp [isObject, isUnit] at hshape ⊢
    -- a shape stays above the value unless another with its key takes its place
    refine Hierarchy.unit_subtype_union hv (hmem (by simp [hkept (.inl hplain.1) hplain.2])) hself hvm
      fun s hs y hy hk => ?_
    obtain ⟨m', hm', hs⟩ := List.mem_flatMap.1 hs
    have hyshape := isObject_of_key_eq hshape hk
    rcases mem_keptOf hs with rfl | hlit
    · rw [Alternative.iff_of_not_union (hc.flat.alternative hm').isUnion] at hy
      obtain rfl := hy.1
      rwa [hc.eq_of_mem hm' hm hk]
    · cases s with
      | literal l =>
        rw [Alternative.iff_of_not_union rfl] at hy
        simp [hy.1, isObject] at hyshape
      | _ => simp [isLiteral] at hlit

/-! ## All tests of values -/

theorem side_narrow (preds : Predicates) (env : Option (String → Option Ty)) (g : Guard)
    (current : Ty) (answer : Bool) :
    (g.narrow preds env current : Ideal h Split).run.side answer =
      if h.subtype ((g.split preds env current : Ideal h Split).run.side answer) current then
        (g.split preds env current : Ideal h Split).run.side answer
      else current := by
  have hrun := run_withinInput (h := h) current (g.split preds env current : Ideal h Split).run
  rw [narrow, Ideal.run_bind]
  cases answer
  · exact hrun.2
  · exact hrun.1

theorem split_keeps_iff (hv : v.isUnit = true) (hc : Canonical current)
    (hs : h.subtype v current = true) (hone : ∀ m ∈ current.members, m.key = v.key → m = v)
    (preds : Predicates) (env : Option (String → Option Ty)) {g : Guard} {answer : Bool}
    (hg : g.Judges v answer) :
    h.subtype v ((g.split preds env current : Ideal h Split).run.side answer) = true ↔
      ¬ (g.Misplaces v ∧ OnlyShapes h v current) := by
  cases hg with
  | typeOf x v ht => exact splitTypeof_keeps_iff hv hc hs x ht
  | truthy x v => exact splitTruthy_keeps_iff hv hc hs hone x
  | @equal op x v hop =>
    refine iff_of_true ?_ (by simp [Misplaces])
    have hside := side_splitEquality (h := h) hop v current !op.negated
    rw [Bool.not_bne_self] at hside
    rw [split, comparandType, hside]
    exact unit_subtype_meet hv hc hs
  | @unequal op x v r hop hr hne =>
    refine iff_of_true ?_ (by cases v <;> simp [Misplaces])
    have hside := side_splitEquality (h := h) hop r current op.negated
    rw [bne_self_eq_false] at hside
    rw [split, comparandType, hside]
    exact unit_subtype_without hv hc hs hr hne

/-- **What narrowing keeps of a type's values.** Take a single value of a type and a guard that tests
its tag, whether it passes, or whether it is some single value. The value is on the side that the guard
answers, with one exception: the guard sends object shapes to the other side, only object shapes are
above the value, and what the rule leaves on the value's side is within the type, so that narrowing
does not fall back on the whole of it. A store has one tree for a key, so that the value is itself
where its key is among the alternatives. -/
theorem narrow_keeps_value_iff (h : Hierarchy) (preds : Predicates)
    (env : Option (String → Option Ty)) {current v : Ty} {g : Guard} {answer : Bool}
    (hb : current.Built) (hv : v.isUnit = true) (hs : h.subtype v current = true)
    (hone : ∀ m ∈ current.members, m.key = v.key → m = v) (hg : g.Judges v answer) :
    h.subtype v ((g.narrow preds env current : Ideal h Split).run.side answer) = true ↔
      ¬ (g.Misplaces v ∧
        (∀ m ∈ current.members, h.subtype v m = true → m.isObject = true) ∧
        h.subtype ((g.split preds env current : Ideal h Split).run.side answer) current = true) := by
  have hsplit := split_keeps_iff hv hb.canonical hs hone preds env hg
  rw [side_narrow]
  split
  · rename_i hwithin
    rw [hsplit]
    simp only [OnlyShapes, hwithin, and_true]
  · rename_i hwithin
    exact iff_of_true hs fun hlost => hwithin hlost.2.2

/-- A text is where `typeof` says that it is, in the type of all texts. -/
theorem narrow_keeps_text :
    Ty.string.Built ∧ (Guard.typeOf "x" "string").Judges (.literal (.text [97])) true ∧
      Hierarchy.subtype {} (.literal (.text [97]))
        (((Guard.typeOf "x" "string").narrow [] none .string : Ideal {} Split).run.side true) = true := by
  have hb : Ty.string.Built := .atom (by simp [atoms])
  have hg : (Guard.typeOf "x" "string").Judges (.literal (.text [97])) true := by
    have htag : "string" ∈ typeofTags := by simp [typeofTags]
    simpa [typeofTag, Literal.base, kind] using Judges.typeOf "x" (.literal (.text [97])) htag
  have hs : Hierarchy.subtype {} (.literal (.text [97])) .string = true :=
    Hierarchy.literal_subtype_base {} (.text [97])
  have hone : ∀ m ∈ Ty.string.members, m.key = (Ty.literal (.text [97])).key →
      m = .literal (.text [97]) := by
    intro m hm hk
    obtain rfl := List.mem_singleton.1 hm
    exact absurd hk (Hierarchy.base_key_ne (.text [97]))
  refine ⟨hb, hg, (narrow_keeps_value_iff {} [] none hb rfl hs hone hg).2 ?_⟩
  rintro ⟨-, honly, -⟩
  simpa [isObject] using honly .string (by simp [members]) hs

/-- A text has the empty shape, and `typeof` answers `"string"` for it. Yet nothing is left of the empty
shape where `typeof` answers `"string"`. -/
theorem typeof_loses_text :
    (Ty.object "" []).Built ∧
      Hierarchy.subtype {} (.literal (.text [97])) (.object "" []) = true ∧
      (Ty.literal (.text [97])).typeofTag = "string" ∧
      Hierarchy.subtype {} (.literal (.text [97]))
        (((Guard.typeOf "x" "string").narrow [] none (.object "" []) : Ideal {} Split).run.side true) =
          false := by
  refine ⟨.object "" [] (by simp), ?_, by simp [typeofTag, Literal.base, kind], ?_⟩
  · refine Hierarchy.subtype_of_rule {} ?_
    rw [Rules.subtypeRule, Rules.rightSubtype, Rules.plainSubtype, Rules.run_objectSubtype]
    · simp [Rules.propsSubtype]
    all_goals simp
  · have hsides : typeofSides {} "string" (.object "" []) = (.never, .object "" []) :=
      typeofSides_of_ne (by simp [typeofTag]) (by simp [typeofTag])
    have hsplit : ((Guard.typeOf "x" "string").split [] none (.object "" []) :
        Ideal {} Split).run.side true = .never := by
      rw [split, side_splitTypeof (by simp [typeofTags])]
      simp only [members, List.map_cons, List.map_nil, hsides, if_true]
      rfl
    rw [side_narrow, hsplit, Hierarchy.never_subtype, if_pos rfl, Bool.eq_false_iff]
    intro hs
    simp [Hierarchy.subtype_never_iff] at hs

end Guard
end FlowTyping
