import FlowTyping.Proofs.Relation.Lineage
import FlowTyping.Proofs.Relation.Units
import FlowTyping.Proofs.Store.Identity

/-!
# Subtyping of data is transitive

Data types have no functions, no intersections and no optional properties in them. Among them what is below
a type is below all that is above it. The rules are tried in a fixed order, so the one that put a type below
the middle one need not be the one that is asked about the two outer types.

* **`Hierarchy.Below`** — the rules for data, without their order, and **`Hierarchy.subtype_iff_below`**, by
  which types of different keys are in the relation exactly if one of the rules applies.
* **`Ty.ElemsFit.trans`** — transitivity of the comparison of tuples, position by position.
* **`Hierarchy.subtype_trans`** — transitivity, over every hierarchy of declared classes. Its types come from
  one store, which keeps one tree for a key (`Ty.Distinct`); `Universe.Sound.distinct` says so of universes,
  and `Ty.distinct_named` of all data whose names are words.
-/

namespace FlowTyping

/-! ## Data -/

namespace Ty

variable {a b s t : Ty} {K : Ty → Prop}

/-- The type itself is no function, no intersection, and no shape with an optional property. -/
def OwnData : Ty → Prop
  | .object _ props => ∀ p ∈ props, p.optional = false
  | .function _ _ | .inter _ => False
  | _ => True

/-- No function, no intersection and no optional property is in the type. -/
inductive Data : Ty → Prop where
  | intro {t : Ty} (hown : t.OwnData) (hparts : ∀ s ∈ t.parts, Data s) : Data t

/-- Whether the type is data with an outline: its values are neither `null` nor `undefined`, and it has no
alternatives and no bound that stand for it. -/
def hasOutline : Ty → Bool
  | .boolean | .number | .string | .literal _ | .object _ _ | .tuple _ _ => true
  | _ => false

namespace Data

theorem own (ht : Data t) : t.OwnData := by
  cases ht with
  | intro hown _ => exact hown

theorem part (ht : Data t) (hs : s ∈ t.parts) : Data s := by
  cases ht with
  | intro _ hparts => exact hparts s hs

theorem atom (ht : t ∈ atoms) : Data t := by
  simp only [atoms, List.mem_cons, List.not_mem_nil, or_false] at ht
  rcases ht with rfl | rfl | rfl | rfl | rfl | rfl | rfl <;>
    exact .intro trivial (by simp [parts])

theorem literal (l : Literal) : Data (.literal l) := .intro trivial (by simp [parts])

/-- A key leaves out nothing of data. -/
theorem anonymous_eq (ht : Data t) : t.anonymous = t := by
  induction t using parts_induction with
  | step t ih =>
    have hpart (s) (hs : s ∈ t.parts) : s.anonymous = s := ih s hs (ht.part hs)
    have hall (ts : List Ty) (hts : ∀ s ∈ ts, s.anonymous = s) : anonymousAll ts = ts := by
      induction ts with
      | nil => rfl
      | cons s ts ih =>
        rw [anonymousAll, hts s (by simp), ih fun s hs => hts s (by simp [hs])]
    cases t with
    | object tag props =>
      rw [anonymous]
      congr 1
      have hprops (p) (hp : p ∈ props) : p.type.anonymous = p.type :=
        hpart _ (List.mem_map_of_mem hp)
      clear ih ht hpart
      induction props with
      | nil => rfl
      | cons p ps ih =>
        rw [anonymousProps, hprops p (by simp), ih fun p hp => hprops p (by simp [hp])]
    | tuple elems rest =>
      have helems : anonymousElems elems = elems := by
        have helems (e) (he : e ∈ elems) : e.type.anonymous = e.type :=
          hpart _ (List.mem_append_left _ (List.mem_map_of_mem he))
        clear ih ht hpart
        induction elems with
        | nil => rfl
        | cons e es ih =>
          rw [anonymousElems, helems e (by simp), ih fun e he => helems e (by simp [he])]
      cases rest with
      | none => rw [anonymous, helems]
      | some rest => rw [anonymous, helems, hpart rest (by simp [parts])]
    | function params ret => exact absurd ht.own (by simp [OwnData])
    | union ms => rw [anonymous, hall ms hpart]
    | inter ms => rw [anonymous, hall ms hpart]
    | var name bound =>
      cases bound with
      | none => rfl
      | some bound => rw [anonymous, hpart bound (by simp [parts])]
    | _ => rfl

end Data

/-- The types of a family and the parts of them are told apart by their keys. -/
structure Distinct (K : Ty → Prop) : Prop where
  part : ∀ {t s : Ty}, K t → s ∈ t.parts → K s
  eq_of_key_eq : ∀ {a b : Ty}, K a → K b → a.key = b.key → a = b

theorem literal_eq_of_key_eq {l : Literal} (hk : t.key = (Ty.literal l).key) : t = .literal l := by
  obtain ⟨l', rfl, -⟩ := literal_of_key_eq hk
  have hnamed (l : Literal) : Named (.literal l) := .intro trivial (by simp [parts])
  simpa [anonymous] using (key_eq_iff (hnamed l') (hnamed l)).1 hk

/-- No other tree has the key of an atom or a literal, so these may join any family. -/
theorem Distinct.with_leaves (hK : Distinct K) :
    Distinct fun t => K t ∨ t ∈ atoms ∨ t.isLiteral = true := by
  have hleaf {a b : Ty} (hb : b ∈ atoms ∨ b.isLiteral = true) (hk : a.key = b.key) : a = b := by
    rcases hb with hb | hb
    · exact eq_of_key_eq_atom hb hk
    · cases b with
      | literal l => exact literal_eq_of_key_eq hk
      | _ => simp [isLiteral] at hb
  refine ⟨fun {t s} ht hs => ?_, fun {a b} ha hb hk => ?_⟩
  · rcases ht with ht | ht | ht
    · exact .inl (hK.part ht hs)
    · simp only [atoms, List.mem_cons, List.not_mem_nil, or_false] at ht
      rcases ht with rfl | rfl | rfl | rfl | rfl | rfl | rfl <;> simp [parts] at hs
    · cases t with
      | literal l => simp [parts] at hs
      | _ => simp [isLiteral] at ht
  · rcases hb with hb | hb
    · rcases ha with ha | ha
      · exact hK.eq_of_key_eq ha hb hk
      · exact (hleaf ha hk.symm).symm
    · exact hleaf hb hk

/-- Words keep the keys of all data apart. -/
theorem distinct_named : Distinct fun t => Named t ∧ Data t where
  part ht hs := ⟨ht.1.part hs, ht.2.part hs⟩
  eq_of_key_eq ha hb hk := by
    rw [← ha.2.anonymous_eq, ← hb.2.anonymous_eq]
    exact (key_eq_iff ha.1 hb.1).1 hk

/-! ## Tuples -/

/-- The elements of one tuple fit those of another, where one type fits another by `R`. -/
inductive ElemsFit (R : Ty → Ty → Prop) (restA restB : Option Ty) :
    List (Elem Ty) → List (Elem Ty) → Prop where
  | both {ea eb as bs} (ho : ea.optional = true → eb.optional = true) (hR : R ea.type eb.type)
    (hrest : ElemsFit R restA restB as bs) : ElemsFit R restA restB (ea :: as) (eb :: bs)
  | right {eb bs} (ho : eb.optional = true) (hR : ∀ s ∈ restA, R s eb.type)
    (hrest : ElemsFit R restA restB [] bs) : ElemsFit R restA restB [] (eb :: bs)
  | left {ea as t} (ht : t ∈ restB) (hR : R ea.type t) (hrest : ElemsFit R restA restB as []) :
    ElemsFit R restA restB (ea :: as) []
  | rests (hR : ∀ s ∈ restA, ∃ t ∈ restB, R s t) : ElemsFit R restA restB [] []

/-- One after the other, comparisons of tuples are a comparison. Each of the three tuples may be the first
that has no more elements. -/
theorem ElemsFit.trans {R : Ty → Ty → Prop} {ra rb rc : Option Ty} {as bs cs : List (Elem Ty)}
    (hab : ElemsFit R ra rb as bs) (hbc : ElemsFit R rb rc bs cs)
    (hR : ∀ s ∈ as.map (·.type) ++ ra.toList, ∀ t ∈ bs.map (·.type) ++ rb.toList,
      ∀ u ∈ cs.map (·.type) ++ rc.toList, R s t → R t u → R s u) : ElemsFit R ra rc as cs := by
  induction hab generalizing cs with
  | both hoab hRab _ ih =>
    cases hbc with
    | both hobc hRbc hbc =>
      refine .both (fun ho => hobc (hoab ho)) (hR _ (by simp) _ (by simp) _ (by simp) hRab hRbc) ?_
      exact ih hbc fun s hs t ht u hu => hR s (.tail _ hs) t (.tail _ ht) u (.tail _ hu)
    | left hc hRbc hbc =>
      obtain rfl := Option.mem_def.1 hc
      refine .left hc (hR _ (by simp) _ (by simp) _ (by simp) hRab hRbc) ?_
      exact ih hbc fun s hs t ht u hu => hR s (.tail _ hs) t (.tail _ ht) u hu
  | right hob hRab _ ih =>
    cases hbc with
    | both hobc hRbc hbc =>
      refine .right (hobc hob) (fun s hs => ?_) ?_
      · exact hR s (by simpa using hs) _ (by simp) _ (by simp) (hRab s hs) hRbc
      · exact ih hbc fun s hs t ht u hu => hR s hs t (.tail _ ht) u (.tail _ hu)
    | left _ _ hbc => exact ih hbc fun s hs t ht u hu => hR s hs t (.tail _ ht) u hu
  | left hb hRab _ ih =>
    obtain rfl := Option.mem_def.1 hb
    cases hbc with
    | right hoc hRbc hbc =>
      refine .both (fun _ => hoc) (hR _ (by simp) _ (by simp) _ (by simp) hRab (hRbc _ hb)) ?_
      exact ih hbc fun s hs t ht u hu => hR s (.tail _ hs) t ht u (.tail _ hu)
    | rests hRbc =>
      obtain ⟨c, rfl, hRbc'⟩ := hRbc _ hb
      refine .left rfl (hR _ (by simp) _ (by simp) _ (by simp) hRab hRbc') ?_
      exact ih (.rests hRbc) fun s hs t ht u hu => hR s (.tail _ hs) t ht u hu
  | rests hRab =>
    -- the middle tuple has no elements, so its rest is compared with whatever the last one has
    generalize hbs : ([] : List (Elem Ty)) = bs at hbc
    induction hbc with
    | both => simp at hbs
    | left => simp at hbs
    | right hoc hRbc _ ih =>
      refine .right hoc (fun s hs => ?_) (ih (fun s hs t ht u hu => hR s hs t ht u (.tail _ hu)) rfl)
      obtain ⟨b, rfl, hsb⟩ := hRab s hs
      exact hR s (by simpa using hs) _ (by simp) _ (by simp) hsb (hRbc b rfl)
    | rests hRbc =>
      refine .rests fun s hs => ?_
      obtain ⟨b, rfl, hsb⟩ := hRab s hs
      obtain ⟨c, rfl, hbc⟩ := hRbc b rfl
      exact ⟨c, rfl, hR s (by simpa using hs) _ (by simp) _ (by simp) hsb hbc⟩

end Ty

namespace Rules

open Ty

variable {h : Hierarchy} {r : Rules (Ideal h)} {restA restB : Option Ty}

theorem elemsFit_of_elemsSubtype {elemsA elemsB : List (Elem Ty)}
    (hs : (r.elemsSubtype restA restB elemsA elemsB).run = true) :
    ElemsFit (fun s t => (r.subtype s t).run = true) restA restB elemsA elemsB := by
  induction elemsA generalizing elemsB with
  | nil =>
    induction elemsB with
    | nil =>
      refine .rests fun s hs' => ?_
      obtain rfl := Option.mem_def.1 hs'
      cases restB <;> simp [elemsSubtype] at hs
      exact ⟨_, rfl, hs⟩
    | cons eb bs ih =>
      cases ho : eb.optional <;> cases restA <;> simp [elemsSubtype, ho] at hs
      · exact .right ho (by simp) (ih hs)
      · exact .right ho (by simpa using hs.1) (ih hs.2)
  | cons ea as ih =>
    cases elemsB with
    | nil =>
      cases restB <;> simp [elemsSubtype] at hs
      exact .left rfl hs.1 (ih hs.2)
    | cons eb bs =>
      cases ho : ea.optional <;> cases ho' : eb.optional <;> simp [elemsSubtype, ho, ho'] at hs
      all_goals exact .both (by simp [ho, ho']) hs.1 (ih hs.2)

theorem elemsSubtype_of_elemsFit {elemsA elemsB : List (Elem Ty)}
    (hf : ElemsFit (fun s t => (r.subtype s t).run = true) restA restB elemsA elemsB) :
    (r.elemsSubtype restA restB elemsA elemsB).run = true := by
  induction hf with
  | @both ea eb as bs ho hR _ ih =>
    cases hoa : ea.optional
    · simp [elemsSubtype, hoa, hR, ih]
    · simp [elemsSubtype, hoa, ho hoa, hR, ih]
  | right ho hR _ ih => cases restA <;> simp_all [elemsSubtype]
  | left ht hR _ ih =>
    obtain rfl := Option.mem_def.1 ht
    simp [elemsSubtype, hR, ih]
  | rests hR =>
    cases restA with
    | none => simp [elemsSubtype]
    | some ra =>
      obtain ⟨rb, rfl, hsub⟩ := hR ra rfl
      simp [elemsSubtype, hsub]

end Rules

/-! ## The rules for data -/

namespace Hierarchy

open Ty

variable {h : Hierarchy} {a b c t : Ty} {K : Ty → Prop}

/-- The type has a property at a subtype, and writable where it is asked to be. -/
def HasProp (h : Hierarchy) (a : Ty) (pb : Property Ty) : Prop :=
  ∃ pa, h.propertyOf a pb.name = some pa ∧ (pa.readonly = true → pb.readonly = true) ∧
    h.subtype pa.type pb.type = true

/-- The type carries the tag of a shape, if that has one, and has each of its properties. -/
structure FitsShape (h : Hierarchy) (a : Ty) (tag : String) (props : List (Property Ty)) : Prop where
  tag : tag = "" ∨ Rules.tagFits h tag a = true
  props : ∀ pb ∈ props, h.HasProp a pb

/-- The ways in which data is below data of another key. -/
inductive Below (h : Hierarchy) : Ty → Ty → Prop where
  | never {b : Ty} : Below h .never b
  | unknown {a : Ty} : Below h a .unknown
  | alternatives {ms b} (hb : b.isNever = false) (hms : ∀ m ∈ ms, h.subtype m b = true) :
    Below h (.union ms) b
  | alternative {a m ms} (hu : a.isUnion = false) (hk : a.isUnknown = false) (hm : m ∈ ms)
    (hs : h.subtype a m = true) : Below h a (.union ms)
  | bound {v t b} (hb : b.isNever = false) (hs : h.subtype t b = true) : Below h (.var v (some t)) b
  | base (l : Literal) : Below h (.literal l) l.base
  | shape {a tag props} (ha : a.hasOutline = true) (hf : h.FitsShape a tag props) :
    Below h a (.object tag props)
  | tuple {es fs ra rb} (hf : ElemsFit (fun s t => h.subtype s t = true) ra rb es fs) :
    Below h (.tuple es ra) (.tuple fs rb)

/-- An outline has no optional properties, and each of its properties is a part of it, or a length. -/
theorem propertyOf_outline (ha : a.hasOutline = true) (hd : Data a) {name : Text} {p : Property Ty}
    (hp : h.propertyOf a name = some p) :
    p.optional = false ∧ (p.type ∈ a.parts ∨ p.type ∈ atoms ∨ p.type.isLiteral = true) := by
  rw [propertyOf_knot] at hp
  cases a with
  | object tag props =>
    have hmem := (findProp?_some hp).1
    exact ⟨hd.own p hmem, .inl (List.mem_map_of_mem hmem)⟩
  | string | tuple elems rest =>
    simp only [Rules.propertyStep, Ideal.run_pure, Option.ite_none_right_eq_some] at hp
    obtain ⟨-, rfl⟩ := by simpa using hp
    exact ⟨rfl, .inr (.inl (by simp [atoms]))⟩
  | literal l =>
    cases l with
    | text value =>
      by_cases hname : (name == Rules.lengthName) = true
      · simp only [Rules.propertyStep, hname] at hp
        obtain rfl := Option.some.inj hp
        exact ⟨rfl, .inr (.inr rfl)⟩
      · simp [Rules.propertyStep, hname] at hp
    | _ => simp [Rules.propertyStep] at hp
  | boolean | number => simp [Rules.propertyStep] at hp
  | _ => simp [hasOutline] at ha

theorem fitsShape_iff (ha : a.hasOutline = true) (hd : Data a) {tag : String} {props : List (Property Ty)}
    (hprops : ∀ p ∈ props, p.optional = false) :
    (Rules.objectSubtype h.answers a tag props).run = true ↔ h.FitsShape a tag props := by
  have hnull : a ≠ .null ∧ a ≠ .undefined := by constructor <;> rintro rfl <;> simp [hasOutline] at ha
  rw [Rules.run_objectSubtype _ _ hnull.1 hnull.2, Bool.and_eq_true, Bool.or_eq_true,
    Rules.propsSubtype_iff]
  simp only [Ideal.run_answers_propertyOf, Ideal.run_answers_subtype]
  refine Iff.trans (b := (tag = "" ∨ Rules.tagFits h tag a = true) ∧ ∀ pb ∈ props, h.HasProp a pb)
    (and_congr (by simp) (forall₂_congr fun pb hpb => ?_))
    ⟨fun hf => ⟨hf.1, hf.2⟩, fun hf => ⟨hf.tag, hf.props⟩⟩
  cases hpa : h.propertyOf a pb.name with
  | none => simp [HasProp, hpa, hprops pb hpb]
  | some pa => simp [HasProp, hpa, (propertyOf_outline ha hd hpa).1]

/-- The rules that are left when neither side is a type parameter, and the left one is no union. -/
theorem below_of_rightSubtype (ha : Data a) (hb : Data b)
    (houtline : a.hasOutline = true ∨ a = .null ∨ a = .undefined)
    (hr : (Rules.rightSubtype h.answers a b).run = true) : Below h a b := by
  -- what has an outline is compared as it stands
  have hsplit : a.isUnion = false ∧ a.isUnknown = false ∧ a.isInter = false := by
    cases a with
    | unknown | union _ | inter _ => simp [hasOutline] at houtline
    | _ => exact ⟨rfl, rfl, rfl⟩
  have hplain (hb : b.isUnion = false) : (Rules.plainSubtype h.answers a b).run = true := by
    cases a with
    | inter ms => simp [isInter] at hsplit
    | _ => cases b <;> first | exact hr | simp [isUnion] at hb
  cases b with
  | union bs =>
    have hany : ∃ m ∈ bs, h.subtype a m = true := by
      cases a with
      | inter ms => simp [isInter] at hsplit
      | _ => simpa [Rules.rightSubtype] using hr
    obtain ⟨m, hm, hs⟩ := hany
    exact .alternative hsplit.1 hsplit.2.1 hm hs
  | object tag props =>
    have hobject : (Rules.objectSubtype h.answers a tag props).run = true := by
      have hp := hplain rfl
      cases a <;> exact hp
    rcases houtline with houtline | rfl | rfl
    · exact .shape houtline ((fitsShape_iff houtline ha hb.own).1 hobject)
    all_goals simp [Rules.objectSubtype] at hobject
  | tuple fs rb =>
    have hp := hplain rfl
    cases a with
    | tuple es ra => exact .tuple (Rules.elemsFit_of_elemsSubtype hp)
    | _ => simp [Rules.plainSubtype] at hp
  | boolean | number | string =>
    have hp := hplain rfl
    cases a with
    | literal l =>
      have hkey := same_iff.1 (by simpa [Rules.plainSubtype] using hp)
      rw [← eq_of_key_eq_atom (by simp [atoms]) hkey]
      exact .base l
    | _ => simp [Rules.plainSubtype] at hp
  | function params ret => exact absurd hb.own (by simp [OwnData])
  | _ =>
    have hp := hplain rfl
    cases a <;> simp [Rules.plainSubtype] at hp

theorem below_of_rule (ha : Data a) (hb : Data b)
    (hr : (Rules.subtypeRule h.answers a b).run = true) : Below h a b := by
  by_cases hunknown : b = .unknown
  · exact hunknown ▸ .unknown
  by_cases hnever : b = .never
  · subst hnever
    cases a with
    | never => exact .never
    | _ => simp [Rules.subtypeRule] at hr
  have hn : b.isNever = false := by
    cases b with
    | never => exact absurd rfl hnever
    | _ => rfl
  cases a with
  | never => exact .never
  | unknown =>
    rw [Rules.subtypeRule.eq_3 _ _ hunknown] at hr
    simp at hr
  | union ms =>
    refine .alternatives hn ?_
    rw [Rules.subtypeRule] at hr
    · simpa using hr
    all_goals simp_all
  | inter ms => exact absurd ha.own (by simp [OwnData])
  | function params ret => exact absurd ha.own (by simp [OwnData])
  | var v bound =>
    -- a parameter is below a union that has it as a member, or else what its bound is below
    have hvar : (Rules.varSubtype h.answers (.var v bound) bound b).run = true := by
      cases b with
      | inter bs => exact absurd hb.own (by simp [OwnData])
      | _ => first | exact hr | contradiction
    rw [Rules.run_varSubtype, Bool.or_eq_true, Bool.and_eq_true] at hvar
    rcases hvar with ⟨hu, hany⟩ | hbound
    · cases b with
      | union bs =>
        obtain ⟨m, hm, hs⟩ := List.any_eq_true.1 hany
        exact .alternative rfl rfl hm hs
      | _ => simp [isUnion] at hu
    · cases bound with
      | none => simp at hbound
      | some t => exact .bound hn (by simpa using hbound)
  | _ =>
    refine below_of_rightSubtype ha hb (by simp [hasOutline]) ?_
    cases b with
    | inter bs => exact absurd hb.own (by simp [OwnData])
    | _ => first | exact hr | contradiction

theorem subtype_of_below (ha : Data a) (hb : Data b) (hbelow : Below h a b) : h.subtype a b = true := by
  cases hbelow with
  | never => exact h.never_subtype b
  | unknown => exact h.subtype_unknown a
  | alternatives hn hms => exact h.union_subtype hn hms
  | alternative hu hk hm hs => exact h.subtype_union_of_mem hu hk hm hs
  | @bound v t _ hn hs =>
    refine h.subtype_of_rule ?_
    have hvar : (Rules.varSubtype h.answers (.var v (some t)) (some t) b).run = true := by
      rw [Rules.run_varSubtype]
      simp [hs]
    cases b with
    | unknown => simp [Rules.subtypeRule]
    | never => simp [isNever] at hn
    | inter bs => exact absurd hb.own (by simp [OwnData])
    | _ => exact hvar
  | base l => exact h.literal_subtype_base l
  | shape houtline hf =>
    have hobject := (fitsShape_iff houtline ha hb.own).2 hf
    refine h.subtype_of_rule ?_
    cases a with
    | boolean | number | string | literal _ | object _ _ | tuple _ _ => exact hobject
    | _ => simp [hasOutline] at houtline
  | tuple hf => exact h.subtype_of_rule (Rules.elemsSubtype_of_elemsFit hf)

/-- **Data is below data of another key exactly if one of the rules applies.** -/
theorem subtype_iff_below (ha : Data a) (hb : Data b) :
    h.subtype a b = true ↔ a.key = b.key ∨ Below h a b := by
  constructor
  · intro hs
    rw [subtype_eq, Bool.or_eq_true, decide_eq_true_iff] at hs
    exact hs.imp id (below_of_rule ha hb)
  · rintro (hk | hbelow)
    · exact h.subtype_of_key_eq hk
    · exact subtype_of_below ha hb hbelow

/-! ## Transitivity -/

/-- Transitivity for types that are smaller together. -/
def TransBelow (h : Hierarchy) (K : Ty → Prop) (n : Nat) : Prop :=
  ∀ {a b c : Ty}, a.size + b.size + c.size < n → K a → K b → K c → Data a → Data b → Data c →
    h.subtype a b = true → h.subtype b c = true → h.subtype a c = true

theorem tagFits_trans (hh : Declared h.classes) {tag tag' : String} {props : List (Property Ty)}
    (hab : Rules.tagFits h tag a = true) (hbc : Rules.tagFits h tag' (.object tag props) = true) :
    Rules.tagFits h tag' a = true := by
  cases a with
  | object own ps =>
    simp only [Rules.tagFits, Bool.and_eq_true] at hab hbc ⊢
    exact ⟨hab.1, derives_trans hh hab.2 hbc.2⟩
  | _ => simp [Rules.tagFits] at hab

theorem fitsShape_trans {n : Nat} (ih : TransBelow h K n) (hh : Declared h.classes) (hK : Distinct K)
    (hleaf : ∀ t : Ty, t ∈ atoms ∨ t.isLiteral = true → K t) {tag tag' : String}
    {props props' : List (Property Ty)}
    (hn : a.size + (Ty.object tag props).size + (Ty.object tag' props').size < n + 1)
    (ha : K a) (hb : K (.object tag props)) (hc : K (.object tag' props')) (hda : Data a)
    (hdb : Data (.object tag props)) (hdc : Data (.object tag' props')) (houtline : a.hasOutline = true)
    (hab : h.FitsShape a tag props) (hbc : h.FitsShape (.object tag props) tag' props') :
    h.FitsShape a tag' props' := by
  refine ⟨?_, fun pc hpc => ?_⟩
  · rcases hbc.tag with htag' | htag'
    · exact .inl htag'
    · rcases hab.tag with rfl | htag
      · simp [Rules.tagFits] at htag'
      · exact .inr (tagFits_trans hh htag htag')
  · obtain ⟨pb, hpb, hrbc, hsbc⟩ := hbc.props pc hpc
    have hfound : findProp? props pc.name = some pb := by
      rw [propertyOf_knot] at hpb
      exact hpb
    obtain ⟨hmem, hname⟩ := findProp?_some hfound
    obtain ⟨pa, hpa, hrab, hsab⟩ := hab.props pb hmem
    have hpartb : pb.type ∈ (Ty.object tag props).parts := List.mem_map_of_mem hmem
    have hpartc : pc.type ∈ (Ty.object tag' props').parts := List.mem_map_of_mem hpc
    have hltb := size_lt_of_mem_parts hpartb
    have hltc := size_lt_of_mem_parts hpartc
    -- the property of the left side is a part of it, or the length of a text or a tuple
    have hpart : K pa.type ∧ Data pa.type ∧ pa.type.size ≤ a.size := by
      rcases (propertyOf_outline houtline hda hpa).2 with hpart | hatom | hlit
      · exact ⟨hK.part ha hpart, hda.part hpart, (size_lt_of_mem_parts hpart).le⟩
      · refine ⟨hleaf _ (.inl hatom), .atom hatom, le_of_eq_of_le ?_ (one_le_size a)⟩
        simp only [atoms, List.mem_cons, List.not_mem_nil, or_false] at hatom
        rcases hatom with heq | heq | heq | heq | heq | heq | heq <;> rw [heq] <;> rfl
      · refine ⟨hleaf _ (.inr hlit), ?_⟩
        cases ht : pa.type with
        | literal l => exact ⟨.literal l, one_le_size a⟩
        | _ => simp [ht, isLiteral] at hlit
    refine ⟨pa, hname ▸ hpa, fun hr => hrbc (hrab hr), ?_⟩
    exact ih (by omega) hpart.1 (hK.part hb hpartb) (hK.part hc hpartc) hpart.2.1 (hdb.part hpartb)
      (hdc.part hpartc) hsab hsbc

/-- The rule for the two outer types is found from the rules that put the middle one between them. -/
theorem below_trans {n : Nat} (ih : TransBelow h K n) (hh : Declared h.classes) (hK : Distinct K)
    (hleaf : ∀ t : Ty, t ∈ atoms ∨ t.isLiteral = true → K t) (hn : a.size + b.size + c.size < n + 1)
    (ha : K a) (hb : K b) (hc : K c) (hda : Data a) (hdb : Data b) (hdc : Data c)
    (hab : Below h a b) (hbc : Below h b c) : h.subtype a c = true := by
  have hsab := subtype_of_below hda hdb hab
  have hsbc := subtype_of_below hdb hdc hbc
  have hright {m} (hm : m ∈ c.parts) (hs : h.subtype b m = true) : h.subtype a m = true :=
    ih (by have := size_lt_of_mem_parts hm; omega) ha hb (hK.part hc hm) hda hdb (hdc.part hm) hsab hs
  by_cases hn' : c.isNever = true
  · obtain rfl : c = .never := by cases c <;> first | rfl | simp [isNever] at hn'
    obtain rfl := h.subtype_never_iff.1 hsbc
    exact hsab
  have hc' : c.isNever = false := by simpa using hn'
  cases hab with
  | never => exact h.never_subtype c
  | unknown => rw [eq_unknown_of_subtype hsbc, h.subtype_unknown]
  | alternatives _ hms =>
    refine h.union_subtype hc' fun m hm => ?_
    have hpart : m ∈ (Ty.union _).parts := hm
    exact ih (by have := size_lt_of_mem_parts hpart; omega) (hK.part ha hpart) hb hc (hda.part hpart)
      hdb hdc (hms m hm) hsbc
  | @bound v t _ _ hs =>
    have hpart : t ∈ (Ty.var v (some t)).parts := by simp [parts]
    refine subtype_of_below hda hdc (.bound hc' ?_)
    exact ih (by have := size_lt_of_mem_parts hpart; omega) (hK.part ha hpart) hb hc (hda.part hpart)
      hdb hdc hs hsbc
  | base l => exact literal_subtype_of_base hsbc
  | @alternative _ m ms hu hk hm hs =>
    -- the member that `a` is below is below `c`, as all members are
    have hpart : m ∈ (Ty.union ms).parts := hm
    have hmc : h.subtype m c = true := by
      cases hbc with
      | unknown => exact h.subtype_unknown m
      | alternatives _ hms => exact hms m hm
      | alternative hu' => simp [isUnion] at hu'
      | shape houtline => simp [hasOutline] at houtline
    exact ih (by have := size_lt_of_mem_parts hpart; omega) ha (hK.part hb hpart) hc hda
      (hdb.part hpart) hdc hs hmc
  | @shape _ tag props houtline hf =>
    have hsplit : a.isUnion = false ∧ a.isUnknown = false := by
      cases a <;> first | exact ⟨rfl, rfl⟩ | simp [hasOutline] at houtline
    cases hbc with
    | unknown => exact h.subtype_unknown a
    | alternative _ _ hm hs => exact h.subtype_union_of_mem hsplit.1 hsplit.2 hm (hright hm hs)
    | shape _ hf' =>
      refine subtype_of_below hda hdc (.shape houtline ?_)
      exact fitsShape_trans ih hh hK hleaf hn ha hb hc hda hdb hdc houtline hf hf'
  | @tuple es fs ra rb hf =>
    cases hbc with
    | unknown => exact h.subtype_unknown _
    | alternative _ _ hm hs => exact h.subtype_union_of_mem rfl rfl hm (hright hm hs)
    | @shape _ tag props _ hf' =>
      -- a tuple has the properties of every other
      have hprop (name : Text) : h.propertyOf (.tuple es ra) name = h.propertyOf (.tuple fs rb) name := by
        simp [propertyOf_knot, Rules.propertyStep]
      refine subtype_of_below hda hdc (.shape rfl ⟨hf'.tag.imp id fun ht => ?_, fun pc hpc => ?_⟩)
      · simp [Rules.tagFits] at ht
      · rw [HasProp, hprop]
        exact hf'.props pc hpc
    | @tuple _ gs _ rc hf' =>
      refine subtype_of_below hda hdc (.tuple (hf.trans hf' fun s hs t ht u hu => ?_))
      have hlts := size_lt_of_mem_parts (t := .tuple es ra) hs
      have hltt := size_lt_of_mem_parts (t := .tuple fs rb) ht
      have hltu := size_lt_of_mem_parts (t := .tuple gs rc) hu
      exact ih (by omega) (hK.part ha hs) (hK.part hb ht) (hK.part hc hu) (hda.part hs) (hdb.part ht)
        (hdc.part hu)

/-- The induction over the sizes of the three types. -/
theorem transBelow (hh : Declared h.classes) (hK : Distinct K)
    (hleaf : ∀ t : Ty, t ∈ atoms ∨ t.isLiteral = true → K t) (n : Nat) : TransBelow h K n := by
  induction n with
  | zero => exact fun hn => absurd hn (by omega)
  | succ n ih =>
    intro a b c hn ha hb hc hda hdb hdc hab hbc
    rcases (subtype_iff_below hda hdb).1 hab with hk | hab
    · rwa [hK.eq_of_key_eq ha hb hk]
    · rcases (subtype_iff_below hdb hdc).1 hbc with hk | hbc
      · rw [← hK.eq_of_key_eq hb hc hk]
        exact subtype_of_below hda hdb hab
      · exact below_trans ih hh hK hleaf hn ha hb hc hda hdb hdc hab hbc

/-- **Subtyping of data is transitive**, over every hierarchy of declared classes. The types come from one
store, so that types with one key are one. -/
theorem subtype_trans (hh : Declared h.classes) (hK : Distinct K) (ha : K a) (hb : K b) (hc : K c)
    (hda : Data a) (hdb : Data b) (hdc : Data c) (hab : h.subtype a b = true)
    (hbc : h.subtype b c = true) : h.subtype a c = true :=
  transBelow hh hK.with_leaves (fun _ => .inr) _ (Nat.lt_succ_self _) (.inl ha) (.inl hb) (.inl hc) hda hdb
    hdc hab hbc

end Hierarchy

/-! ## The types of a universe -/

open Ty

/-- The entries of a universe are told apart by their keys. -/
theorem Universe.Sound.distinct {h : Hierarchy} {u : Universe} (hu : u.Sound h) :
    Distinct u.Keeps where
  part ht hs := hu.part ht _ hs
  eq_of_key_eq ha hb hk := ha.eq_of_key_eq hb hk

end FlowTyping
