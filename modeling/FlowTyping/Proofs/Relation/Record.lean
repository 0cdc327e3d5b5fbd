import FlowTyping.Proofs.Relation.Join
import FlowTyping.Proofs.Relation.Transitive

/-!
# Record data

Record data are `null`, `undefined`, the three atoms of sorts, literals, unions, and plain shapes that require
all of their properties, none of which is a length. On them the order is decided alternative by alternative,
and a type that two disjoint types are above is `never`.

* **`Ty.Record`** — record data; **`Ty.Tidy`** — record data as a store makes it, with words for names.
* **`Ty.Extended`** — with `never` below and `unknown` above it, and **`Ty.Point`**, a single alternative.
* **`Hierarchy.extended_subtype_iff`**, **`Hierarchy.point_subtype_iff`** — one type is below another if each
  alternative of the one is below an alternative of the other.
* **`Hierarchy.not_point_of_disjoint`** — nothing is below both of two disjoint types.
-/

namespace FlowTyping

namespace Ty

variable {a b m s t x : Ty}

/-- The type itself is `null`, `undefined`, an atom of a sort, a literal, a union, or a plain shape that
requires its properties, where none is a length. -/
def OwnRecord : Ty → Prop
  | .null | .undefined | .boolean | .number | .string | .literal _ | .union _ => True
  | .object tag props => tag = "" ∧ ∀ p ∈ props, p.optional = false ∧ p.name ≠ Rules.lengthName
  | _ => False

/-- Record data. -/
inductive Record : Ty → Prop where
  | intro {t : Ty} (hown : t.OwnRecord) (hparts : ∀ s ∈ t.parts, Record s) : Record t

/-- Record data as a store makes it: names are words, properties and members stand in order, and unions are
simplified. -/
inductive Tidy : Ty → Prop where
  | intro {t : Ty} (hrecord : t.OwnRecord) (hnamed : t.OwnNamed) (horderly : t.Orderly)
    (hparts : ∀ s ∈ t.parts, Tidy s) : Tidy t

namespace Tidy

theorem own (ht : Tidy t) : t.OwnRecord ∧ t.OwnNamed ∧ t.Orderly := by
  cases ht with
  | intro hrecord hnamed horderly _ => exact ⟨hrecord, hnamed, horderly⟩

theorem part (ht : Tidy t) (hs : s ∈ t.parts) : Tidy s := by
  cases ht with
  | intro _ _ _ hparts => exact hparts s hs

theorem named (ht : Tidy t) : Named t := by
  induction t using parts_induction with
  | step t ih => exact .intro ht.own.2.1 fun s hs => ih s hs (ht.part hs)

theorem data (ht : Tidy t) : Data t := by
  induction t using parts_induction with
  | step t ih =>
    refine .intro ?_ fun s hs => ih s hs (ht.part hs)
    have hown := ht.own.1
    cases t with
    | object tag props => exact fun p hp => (hown.2 p hp).1
    | function _ _ | inter _ => exact hown
    | _ => trivial

theorem canonical (ht : Tidy t) : Canonical t := by
  induction t using parts_induction with
  | step t ih =>
    refine .intro ?_ fun s hs => ih s hs (ht.part hs)
    have ⟨hown, _, horderly⟩ := ht.own
    cases t with
    | union ms =>
      have hform : UnionForm ms := horderly
      exact ⟨hform.two_le, keys_nodup_of_increasing hform.increasing, hform.member⟩
    | inter ms => exact hown.elim
    | _ => trivial

/-- Record data is neither end of the order, and no intersection. -/
theorem not_end (ht : Tidy t) : t.isNever = false ∧ t.isUnknown = false ∧ t.isInter = false := by
  have hown := ht.own.1
  cases t with
  | never | unknown | inter _ => exact hown.elim
  | _ => exact ⟨rfl, rfl, rfl⟩

theorem ne_never (ht : Tidy t) : t ≠ .never := by
  rintro rfl
  exact ht.own.1

theorem ne_unknown (ht : Tidy t) : t ≠ .unknown := by
  rintro rfl
  exact ht.own.1

theorem member (ht : Tidy t) (hm : m ∈ t.members) : Tidy m := of_mem_members ht (fun _ => ht.part) hm

/-- Not both booleans are alternatives: they would have become `boolean`. -/
theorem not_both (ht : Tidy t) : ¬ ∀ b, Ty.literal (.bool b) ∈ t.members := by
  intro hboth
  cases t with
  | union ms => exact ht.own.2.2.not_both hboth
  | never => simpa [members] using hboth true
  | _ =>
    have htrue := List.mem_singleton.1 (hboth true)
    have hfalse := List.mem_singleton.1 (hboth false)
    simp [← htrue] at hfalse

end Tidy

/-- Record data with the two ends of the order. -/
def Extended (t : Ty) : Prop := Tidy t ∨ t = .never ∨ t = .unknown

/-- A single alternative. -/
structure Point (x : Ty) : Prop where
  extended : Extended x
  isUnion : x.isUnion = false
  isNever : x.isNever = false

namespace Extended

theorem named (ht : Extended t) : Named t := by
  rcases ht with ht | rfl | rfl
  · exact ht.named
  all_goals exact .intro trivial (by simp [parts])

theorem data (ht : Extended t) : Data t := by
  rcases ht with ht | rfl | rfl
  · exact ht.data
  all_goals exact .atom (by simp [atoms])

theorem canonical (ht : Extended t) : Canonical t := by
  rcases ht with ht | rfl | rfl
  · exact ht.canonical
  all_goals exact .of_parts_nil rfl rfl rfl

theorem isInter (ht : Extended t) : t.isInter = false := by
  rcases ht with ht | rfl | rfl
  · exact ht.not_end.2.2
  all_goals rfl

theorem not_both (ht : Extended t) : ¬ ∀ b, Ty.literal (.bool b) ∈ t.members := by
  rcases ht with ht | rfl | rfl
  · exact ht.not_both
  all_goals exact fun hboth => by simpa [members] using hboth true

/-- The alternatives of a type. -/
theorem point (ht : Extended t) (hx : x ∈ t.members) : Point x := by
  rcases ht with ht | rfl | rfl
  · have halt := ht.canonical.flat.alternative hx
    exact ⟨.inl (ht.member hx), halt.isUnion, halt.isNever⟩
  · simp [members] at hx
  · obtain rfl := List.mem_singleton.1 hx
    exact ⟨.inr (.inr rfl), rfl, rfl⟩

theorem exists_member (ht : Extended t) (hn : t ≠ .never) : ∃ x, x ∈ t.members := by
  cases t with
  | never => exact absurd rfl hn
  | union ms =>
    rcases ht with ht | ht | ht
    · have hform : UnionForm ms := ht.own.2.2
      exact List.exists_mem_of_length_pos (Nat.lt_of_lt_of_le Nat.two_pos hform.two_le)
    all_goals simp at ht
  | _ => exact ⟨_, List.mem_singleton_self _⟩

end Extended

theorem Point.members (hx : Point x) : x.members = [x] := members_of_not_union hx.isUnion hx.isNever

end Ty

/-! ## The order -/

namespace Hierarchy

open Ty

variable {h : Hierarchy} {a b c m s t x : Ty}

theorem extended_trans (hh : Declared h.classes) (ha : Extended a) (hb : Extended b) (hc : Extended c)
    (hab : h.subtype a b = true) (hbc : h.subtype b c = true) : h.subtype a c = true :=
  transBelow hh distinct_named.with_leaves (fun _ => .inr) _ (Nat.lt_succ_self _)
    (.inl ⟨ha.named, ha.data⟩) (.inl ⟨hb.named, hb.data⟩) (.inl ⟨hc.named, hc.data⟩) ha.data hb.data hc.data
    hab hbc

theorem eq_of_key_eq_of_extended (ha : Extended a) (hb : Extended b) (hk : a.key = b.key) : a = b :=
  distinct_named.eq_of_key_eq ⟨ha.named, ha.data⟩ ⟨hb.named, hb.data⟩ hk

/-- A single alternative is below a type when it is below an alternative of it. -/
theorem point_subtype_iff (hx : Point x) (ht : Extended t) :
    h.subtype x t = true ↔ ∃ m ∈ t.members, h.subtype x m = true := by
  cases t with
  | never =>
    have hn := hx.isNever
    rw [subtype_never_iff]
    constructor
    · rintro rfl
      simp [isNever] at hn
    · simp [members]
  | union ms =>
    have ht : Tidy (.union ms) := by simpa [Extended] using ht
    constructor
    · intro hs
      rcases (subtype_iff_below hx.extended.data ht.data).1 hs with hk | hbelow
      · have hu := hx.isUnion
        obtain rfl := eq_of_key_eq_of_extended hx.extended (.inl ht) hk
        simp [isUnion] at hu
      · generalize hu : Ty.union ms = u at hbelow
        cases hbelow with
        | alternative _ _ hm hs =>
          obtain rfl := Ty.union.inj hu
          exact ⟨_, hm, hs⟩
        | never => simpa [isNever] using hx.isNever
        | alternatives => simpa [isUnion] using hx.isUnion
        | @bound v t =>
          have hvar : Tidy (.var v (some t)) := by simpa [Extended] using hx.extended
          exact hvar.own.1.elim
        | base l => cases l <;> simp [Literal.base] at hu
        | _ => simp at hu
    · rintro ⟨m, hm, hs⟩
      refine h.subtype_union_of_mem hx.isUnion ?_ hm hs
      rcases hx.extended with hx | rfl | rfl
      · exact hx.not_end.2.1
      · rfl
      · exact absurd (eq_unknown_of_subtype hs) (ht.member hm).ne_unknown
  | _ => simp [members]

/-- A type is below another when its alternatives are. -/
theorem extended_subtype_iff (hs : Extended s) (ht : Extended t) :
    h.subtype s t = true ↔ ∀ x ∈ s.members, h.subtype x t = true := by
  refine ⟨fun hst x hx => ?_, subtype_of_members_subtype hs.canonical⟩
  by_cases hk : s.key = t.key
  · obtain rfl := eq_of_key_eq_of_extended hs ht hk
    exact (point_subtype_iff (hs.point hx) hs).2 ⟨x, hx, h.subtype_self x⟩
  · exact subtype_of_mem_members hk hst hx

/-! ## Single alternatives -/

/-- Only shapes and texts have properties, and texts only a length. -/
theorem propertyOf_of_not_object (ht : Tidy t) (ho : t.isObject = false) {name : Text}
    (hname : name ≠ Rules.lengthName) (hu : t.isUnion = false) : h.propertyOf t name = none := by
  have hown := ht.own.1
  rw [propertyOf_knot]
  cases t with
  | string => simp [Rules.propertyStep, hname]
  | literal l => cases l <;> simp [Rules.propertyStep, hname]
  | object _ _ => simp [isObject] at ho
  | union _ => simp [isUnion] at hu
  | null | undefined | boolean | number => simp [Rules.propertyStep]
  | _ => exact hown.elim

/-- How one alternative is below another: it is that one, or a literal of it, or fits its shape. -/
theorem below_point (hx : Point x) (hb : Tidy b) (hu : b.isUnion = false) (hs : h.subtype x b = true) :
    Tidy x ∧ (x = b ∨ (∃ l, x = .literal l ∧ b = l.base) ∨
      ∃ props, b = .object "" props ∧ x.hasOutline = true ∧ h.FitsShape x "" props) := by
  have htidy : Tidy x := by
    rcases hx.extended with hx' | rfl | rfl
    · exact hx'
    · simpa [isNever] using hx.isNever
    · exact absurd (eq_unknown_of_subtype hs) hb.ne_unknown
  refine ⟨htidy, ?_⟩
  rcases (subtype_iff_below htidy.data hb.data).1 hs with hk | hbelow
  · exact .inl (eq_of_key_eq_of_extended (.inl htidy) (.inl hb) hk)
  · cases hbelow with
    | base l => exact .inr (.inl ⟨l, rfl, rfl⟩)
    | @shape _ tag props houtline hf =>
      obtain rfl : tag = "" := hb.own.1.1
      exact .inr (.inr ⟨props, rfl, houtline, hf⟩)
    | never => exact absurd rfl htidy.ne_never
    | unknown => exact absurd rfl hb.ne_unknown
    | alternatives => simpa [isUnion] using hx.isUnion
    | alternative => simp [isUnion] at hu
    | bound => exact htidy.own.1.elim
    | tuple => exact htidy.own.1.elim

/-- What is no shape fits one only if it asks for nothing. -/
theorem props_eq_nil_of_fits (ht : Tidy x) (ho : x.isObject = false) (hu : x.isUnion = false) {tag : String}
    {props : List (Property Ty)} (hobject : Tidy (.object tag props)) (hf : h.FitsShape x tag props) :
    props = [] := by
  refine List.eq_nil_iff_forall_not_mem.2 fun p hp => ?_
  obtain ⟨q, hq, -⟩ := hf.props p hp
  simp [propertyOf_of_not_object ht ho (hobject.own.1.2 p hp).2 hu] at hq

theorem propertyOf_object {tag : String} {props : List (Property Ty)} {name : Text} :
    h.propertyOf (.object tag props) name = findProp? props name := by
  rw [propertyOf_knot]
  rfl

/-- What is below a shape fits it, the shape itself included. -/
theorem fitsShape_of_subtype (hx : Point x) {tag : String} {props : List (Property Ty)}
    (ht : Tidy (.object tag props)) (hs : h.subtype x (.object tag props) = true) :
    Tidy x ∧ x.hasOutline = true ∧ h.FitsShape x tag props := by
  obtain rfl : tag = "" := ht.own.1.1
  obtain ⟨htidy, hcases⟩ := below_point hx ht rfl hs
  refine ⟨htidy, ?_⟩
  rcases hcases with rfl | ⟨l, -, hl⟩ | ⟨props', heq, houtline, hf⟩
  · refine ⟨rfl, .inl rfl, fun p hp => ⟨p, ?_, id, h.subtype_self _⟩⟩
    rw [propertyOf_object, findProp?_eq_some_iff ht.own.2.2]
    exact ⟨hp, rfl⟩
  · cases l <;> simp [Literal.base] at hl
  · obtain ⟨-, rfl⟩ := Ty.object.inj heq
    exact ⟨houtline, hf⟩

/-- The property that a type has where a shape asks for one is record data. -/
theorem tidy_of_propertyOf (hx : Point x) (ht : Tidy x) {name : Text} {p : Property Ty}
    (hname : name ≠ Rules.lengthName) (hp : h.propertyOf x name = some p) :
    Tidy p.type ∧ p.type.size < x.size := by
  cases x with
  | object tag props =>
    rw [propertyOf_object] at hp
    have hpart : p.type ∈ (Ty.object tag props).parts := List.mem_map_of_mem (findProp?_some hp).1
    exact ⟨ht.part hpart, size_lt_of_mem_parts hpart⟩
  | _ =>
    rw [propertyOf_of_not_object ht rfl hname hx.isUnion] at hp
    simp at hp

/-! ## Disjointness -/

/-- Alternatives of two sorts are below no type in common, unless one is below the other. -/
theorem not_point_of_differInSort (hx : Point x) (ha : Tidy a) (hb : Tidy b) (hua : a.isUnion = false)
    (hub : b.isUnion = false) (hab : h.subtype a b = false) (hba : h.subtype b a = false)
    (hd : a.differInSort b = true) (hxa : h.subtype x a = true) (hxb : h.subtype x b = true) : False := by
  obtain ⟨htidy, hxa⟩ := below_point hx ha hua hxa
  obtain ⟨-, hxb⟩ := below_point hx hb hub hxb
  -- a shape that a literal fits asks for nothing, so the atom of the literal fits it as well
  have hbase {l : Literal} {props : List (Property Ty)} (hobject : Tidy (.object "" props))
      (hl : Tidy (.literal l)) (hf : h.FitsShape (.literal l) "" props) :
      h.subtype l.base (.object "" props) = true := by
    obtain rfl := props_eq_nil_of_fits hl rfl rfl hobject hf
    refine subtype_of_below ?_ hobject.data (.shape ?_ ⟨.inl rfl, by simp⟩)
    · exact .atom (base_mem_atoms l)
    · cases l <;> rfl
  have hself {t : Ty} : ¬ h.subtype t t = false := by simp
  rcases hxa with rfl | ⟨l, rfl, rfl⟩ | ⟨props, rfl, houtline, hf⟩
  · rcases hxb with rfl | ⟨l, rfl, rfl⟩ | ⟨props, rfl, houtline, hf⟩
    · exact hself hab
    · simp [h.literal_subtype_base] at hab
    · simp [subtype_of_below ha.data hb.data (.shape houtline hf)] at hab
  · rcases hxb with rfl | ⟨l', hl, rfl⟩ | ⟨props, rfl, -, hf⟩
    · simp [h.literal_subtype_base] at hba
    · obtain rfl := Ty.literal.inj hl
      exact hself hab
    · simp [hbase hb htidy hf] at hab
  · rcases hxb with rfl | ⟨l, rfl, rfl⟩ | ⟨props', rfl, -, hf'⟩
    · simp [subtype_of_below hb.data ha.data (.shape houtline hf)] at hba
    · simp [hbase ha htidy hf] at hba
    · simp [differInSort, sort?] at hd

/-- Only the literal itself is below a literal. -/
theorem eq_literal_of_subtype {l : Literal} (hx : Point x) (hl : Tidy (.literal l))
    (hs : h.subtype x (.literal l) = true) : x = .literal l := by
  obtain ⟨-, hxl⟩ := below_point hx hl rfl hs
  rcases hxl with rfl | ⟨k, -, hk⟩ | ⟨props, heq, -⟩
  · rfl
  · cases k <;> simp [Literal.base] at hk
  · simp at heq

/-- What is below two shapes has a property where both have one, and so there is something below both
properties. -/
theorem exists_point_of_shared {tag tag' : String} {propsA propsB : List (Property Ty)} {pa pb : Property Ty}
    (hx : Point x) (ha : Tidy (.object tag propsA)) (hb : Tidy (.object tag' propsB))
    (hxa : h.subtype x (.object tag propsA) = true) (hxb : h.subtype x (.object tag' propsB) = true)
    (hpa : pa ∈ propsA) (hpb : pb ∈ propsB) (hname : pa.name = pb.name) :
    ∃ y, Point y ∧ h.subtype y pa.type = true ∧ h.subtype y pb.type = true := by
  obtain ⟨htidy, -, hfa⟩ := fitsShape_of_subtype hx ha hxa
  obtain ⟨-, -, hfb⟩ := fitsShape_of_subtype hx hb hxb
  obtain ⟨p, hp, -, hpsa⟩ := hfa.props pa hpa
  obtain ⟨q, hq, -, hpsb⟩ := hfb.props pb hpb
  obtain rfl : p = q := by simpa [hname, hq] using hp.symm
  have hptidy := (tidy_of_propertyOf hx htidy (ha.own.1.2 pa hpa).2 hp).1
  obtain ⟨y, hy⟩ := Extended.exists_member (.inl hptidy) hptidy.ne_never
  have hbelow {t : Ty} (ht : Tidy t) (hpt : h.subtype p.type t = true) : h.subtype y t = true :=
    (extended_subtype_iff (.inl hptidy) (.inl ht)).1 hpt y hy
  exact ⟨y, Extended.point (.inl hptidy) hy, hbelow (ha.part (List.mem_map_of_mem hpa)) hpsa,
    hbelow (hb.part (List.mem_map_of_mem hpb)) hpsb⟩

/-- **Nothing is below both of two disjoint types.** The induction is on both types: a shared property that is
required rules out a common value, and unions are disjoint by alternatives. -/
theorem not_point_of_disjoint (ha : Tidy a) (hb : Tidy b) (hd : h.disjoint a b = true) (hx : Point x)
    (hxa : h.subtype x a = true) (hxb : h.subtype x b = true) : False := by
  generalize hn : a.size + b.size = n
  induction n using Nat.strongRecOn generalizing a b x with
  | ind n ih =>
    subst hn
    rw [disjoint_knot, Rules.run_disjointStep] at hd
    split at hd
    · simp [ha.not_end.1] at hd
    split at hd
    · rename_i hnever
      simp [ha.not_end.1, hb.not_end.1] at hnever
    split at hd
    · -- one of the two is a union, so the two alternatives that `x` is below are smaller together
      rename_i hunion
      obtain ⟨ma, hma, hxa⟩ := (point_subtype_iff hx (.inl ha)).1 hxa
      obtain ⟨mb, hmb, hxb⟩ := (point_subtype_iff hx (.inl hb)).1 hxb
      have hsa := Universe.size_le_of_mem_members hma
      have hsb := Universe.size_le_of_mem_members hmb
      have hlt : ma.size + mb.size < a.size + b.size := by
        rcases (Bool.or_eq_true _ _).mp hunion with hu | hu
        · have := hsa.2 hu
          omega
        · have := hsb.2 hu
          omega
      exact ih _ hlt (ha.member hma) (hb.member hmb)
        (List.all_eq_true.1 (List.all_eq_true.1 hd ma hma) mb hmb) hx hxa hxb rfl
    rename_i hunion
    obtain ⟨hua, hub⟩ : a.isUnion = false ∧ b.isUnion = false := by simpa using hunion
    split at hd
    · simp at hd
    split at hd
    · simp at hd
    -- neither is below the other, so they differ in sort or have parts that exclude each other
    rename_i hab hba
    replace hab : h.subtype a b = false := by simpa using hab
    replace hba : h.subtype b a = false := by simpa using hba
    split at hd
    · rename_i hsort
      exact not_point_of_differInSort hx ha hb hua hub hab hba hsort hxa hxb
    cases a with
    | literal l =>
      cases b with
      | literal l' =>
        obtain rfl := eq_literal_of_subtype hx ha hxa
        have heq := eq_literal_of_subtype hx hb hxb
        simp [heq] at hab
      | _ => simp [Rules.partsDisjoint] at hd
    | object tag propsA =>
      cases b with
      | object tag' propsB =>
        -- a property that both require has disjoint types, and the value has one below both of them
        obtain ⟨pa, hpa, pb, hpb, hname, -, -, hdis⟩ := (Rules.propsDisjoint_iff hb.own.2.2).1 hd
        have hparta : pa.type ∈ (Ty.object tag propsA).parts := List.mem_map_of_mem hpa
        have hpartb : pb.type ∈ (Ty.object tag' propsB).parts := List.mem_map_of_mem hpb
        have hlt := Nat.add_lt_add (size_lt_of_mem_parts hparta) (size_lt_of_mem_parts hpartb)
        obtain ⟨y, hy, hya, hyb⟩ := exists_point_of_shared hx ha hb hxa hxb hpa hpb hname
        exact ih _ hlt (ha.part hparta) (hb.part hpartb) hdis hy hya hyb rfl
      | _ => simp [Rules.partsDisjoint] at hd
    | tuple => exact ha.own.1.elim
    | _ => cases b <;> simp [Rules.partsDisjoint] at hd

end Hierarchy
end FlowTyping
