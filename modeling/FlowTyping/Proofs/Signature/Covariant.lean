import FlowTyping.Proofs.Relation.Transitive
import FlowTyping.Proofs.Signature.Closed
import FlowTyping.Proofs.Store.Replaced

/-!
# Covariant parameter types

In a covariant type every type parameter stands alone, or as a part of tuples and shapes only. Then an argument
is below the type with its parameters replaced as soon as each replacement has the parts of the argument that
stand where its parameter does.

* **`Ty.Covariant`** — the types, and **`Ty.Fed`** — a relation between type parameters and types holds of each
  parameter and the parts of an argument that are matched with it.
* **`Hierarchy.elemsFit_of_subtype`**, **`Hierarchy.fits_of_subtype`** — what an argument below a tuple or a shape
  is like.
* **`Universe.Sound.subtype_replaced`** — an argument that is accepted for some replacements is accepted for all
  that have its matched parts.
-/

namespace FlowTyping

open Ty

/-! ## Types that are covariant in their parameters -/

namespace Ty

variable {vars : List Ty} {t a : Ty}

/-- A type in which parameters stand alone, or in tuples and shapes. -/
inductive Covariant (vars : List Ty) : Ty → Prop where
  | closed {t : Ty} (ht : Closed t) : Covariant vars t
  | param {name : String} (hv : Signature.isOneOf vars (.var name none) = true) : Covariant vars (.var name none)
  | tuple {elems : List (Elem Ty)} {rest : Option Ty} (he : ∀ e ∈ elems, Covariant vars e.type)
    (hr : ∀ t ∈ rest, Covariant vars t) : Covariant vars (.tuple elems rest)
  | object {tag : String} {props : List (Property Ty)} (hp : ∀ p ∈ props, Covariant vars p.type) :
    Covariant vars (.object tag props)

/-- The type of a tuple at a position, that of its rest elements past the last one. -/
def elemAt (elems : List (Elem Ty)) (rest : Option Ty) (i : Nat) : Option Ty :=
  (elems[i]?.map (·.type)).or rest

/-- A relation holds of each type parameter and the parts of an argument that are matched with it. The
alternatives of the argument are taken one by one where the type is a tuple or a shape. -/
inductive Fed (h : Hierarchy) (R : Ty → Ty → Prop) : Ty → Ty → Prop where
  | closed {t a : Ty} (ht : Closed t) : Fed h R t a
  | param {name : String} {a : Ty} (hR : R (.var name none) a) : Fed h R (.var name none) a
  | tuple {elems : List (Elem Ty)} {rest : Option Ty} {a : Ty}
    (he : ∀ part ∈ Signature.matchedParts a, ∀ as ra, part = .tuple as ra → ∀ (i : Nat) (e : Elem Ty) (s : Ty),
      elems[i]? = some e → elemAt as ra i = some s → Fed h R e.type s)
    (hr : ∀ part ∈ Signature.matchedParts a, ∀ as ra, part = .tuple as ra → ∀ r ∈ rest,
      ∀ s ∈ (as.drop elems.length).map (·.type) ++ ra.toList, Fed h R r s) : Fed h R (.tuple elems rest) a
  | object {tag : String} {props : List (Property Ty)} {a : Ty}
    (hp : ∀ part ∈ Signature.matchedParts a, ∀ p ∈ props, ∀ q, h.propertyOf part p.name = some q →
      Fed h R p.type q.type) : Fed h R (.object tag props) a

theorem Fed.imp {h : Hierarchy} {R S : Ty → Ty → Prop} (hf : Fed h R t a) (hRS : ∀ v x, R v x → S v x) :
    Fed h S t a := by
  induction hf with
  | closed ht => exact .closed ht
  | param hR => exact .param (hRS _ _ hR)
  | tuple _ _ ihe ihr => exact .tuple ihe ihr
  | object _ ihp => exact .object ihp

/-- No intersection is in the type. -/
inductive Unmet : Ty → Prop where
  | intro {t : Ty} (hown : t.isInter = false) (hparts : ∀ s ∈ t.parts, Unmet s) : Unmet t

theorem Unmet.own (ht : Unmet t) : t.isInter = false := by
  cases ht with
  | intro hown _ => exact hown

theorem Unmet.part {s : Ty} (ht : Unmet t) (hs : s ∈ t.parts) : Unmet s := by
  cases ht with
  | intro _ hparts => exact hparts s hs

theorem Unmet.leaf (hown : t.isInter = false) (hparts : t.parts = []) : Unmet t :=
  .intro hown fun _ hs => absurd (hparts ▸ hs) List.not_mem_nil

/-- Replacing makes no difference to a closed type. -/
theorem replaced_of_closed {h : Hierarchy} (ht : Closed t) (subst subst' : Subst) :
    h.replaced subst t = h.replaced subst' t := by
  suffices hsame : (TypeStore.rebuild subst t : Ideal h Ty) = TypeStore.rebuild subst' t from congrArg Ideal.run hsame
  induction t using parts_induction with
  | step t ih => exact TypeStore.rebuild_congr ht.not_var fun s hs => ih s hs (ht.part hs)

end Ty

/-! ## What is below a tuple or a shape -/

namespace Hierarchy

variable {h : Hierarchy} {a : Ty} {tag : String} {props : List (Property Ty)} {fs : List (Elem Ty)} {rb : Option Ty}

/-- A single alternative, neither an intersection nor a type parameter. -/
structure Single (a : Ty) : Prop where
  not_union : a.isUnion = false
  not_inter : a.isInter = false
  not_var : a.isVar = false
  not_never : a.isNever = false

/-- What is below a tuple is a tuple whose elements fit. -/
theorem elemsFit_of_subtype (ha : Single a) (hnamed : Named a) (hb : Named (.tuple fs rb))
    (hs : h.subtype a (.tuple fs rb) = true) :
    ∃ es ra, a = .tuple es ra ∧ ElemsFit (fun s t => h.subtype s t = true) ra rb es fs := by
  rw [subtype_eq, Bool.or_eq_true_iff, decide_eq_true_iff] at hs
  rcases hs with hk | hr
  · obtain ⟨es, ra, rfl, hes, hrest⟩ := (mirrors_of_key_eq hb hnamed hk.symm).tuple_inv
    refine ⟨es, ra, rfl, ?_⟩
    clear hnamed hb hk ha
    induction hes with
    | nil =>
      refine .rests fun s hs => ?_
      cases hrest with
      | none => simp at hs
      | some hkey =>
        obtain rfl := Option.some.inj hs
        exact ⟨_, rfl, h.subtype_of_key_eq hkey.symm⟩
    | cons he _ ih => exact .both (fun ho => he.optional.trans ho) (h.subtype_of_key_eq he.type.symm) ih
  · obtain ⟨hu, hi, hv, hn⟩ := ha
    cases a with
    | tuple es ra => exact ⟨es, ra, rfl, Rules.elemsFit_of_elemsSubtype hr⟩
    | union ms => simp [isUnion] at hu
    | inter ms => simp [isInter] at hi
    | var name bound => simp [isVar] at hv
    | never => simp [isNever] at hn
    | _ => simp [Rules.subtypeRule, Rules.rightSubtype, Rules.plainSubtype] at hr

/-- A tuple whose elements fit is below. -/
theorem subtype_of_elemsFit {es : List (Elem Ty)} {ra : Option Ty}
    (hf : ElemsFit (fun s t => h.subtype s t = true) ra rb es fs) :
    h.subtype (.tuple es ra) (.tuple fs rb) = true :=
  h.subtype_of_rule (Rules.elemsSubtype_of_elemsFit hf)

/-- The property of a type fits the one that a shape asks for; if there is none it need not be there. -/
def PropFits (h : Hierarchy) (a : Ty) (pb : Property Ty) : Prop :=
  match h.propertyOf a pb.name with
  | none => pb.optional = true
  | some pa =>
    (pa.optional = true → pb.optional = true) ∧ (pa.readonly = true → pb.readonly = true) ∧
      h.subtype pa.type pb.type = true

theorem propFits_iff : (∀ pb ∈ props, h.PropFits a pb) ↔ (Rules.propsSubtype h.answers a props).run = true :=
  (Rules.propsSubtype_iff h.answers a props).symm

/-- The type is no empty value, carries the tag of a shape and has each of its properties. -/
structure Fits (h : Hierarchy) (a : Ty) (tag : String) (props : List (Property Ty)) : Prop where
  ne_null : a ≠ .null
  ne_undefined : a ≠ .undefined
  ne_unknown : a ≠ .unknown
  tag : (tag.isEmpty || Rules.tagFits h tag a) = true
  props : ∀ pb ∈ props, h.PropFits a pb

/-- What is below a shape fits it. -/
theorem fits_of_subtype (ha : Single a) (hnamed : Named a) (hb : Named (.object tag props))
    (hsorted : props.Pairwise fun p q => p.name < q.name) (hs : h.subtype a (.object tag props) = true) :
    h.Fits a tag props := by
  rw [subtype_eq, Bool.or_eq_true_iff, decide_eq_true_iff] at hs
  rcases hs with hk | hr
  · obtain ⟨qs, rfl, hqs⟩ := (mirrors_of_key_eq hb hnamed hk.symm).object_inv
    refine ⟨by simp, by simp, by simp, ?_, fun pb hpb => ?_⟩
    · cases htag : tag.isEmpty with
      | true => rfl
      | false =>
        simp only [Rules.tagFits, htag, h.derives_refl, Bool.not_false, Bool.true_and, Bool.or_true]
    · have hfind := findProp?_rel hqs pb.name
      rw [(findProp?_eq_some_iff hsorted).2 ⟨hpb, rfl⟩] at hfind
      rw [PropFits, propertyOf_object]
      generalize findProp? qs pb.name = found at hfind
      cases hfind with
      | some hp =>
        exact ⟨fun ho => hp.optional.trans ho, fun hr => hp.readonly.trans hr, h.subtype_of_key_eq hp.type.symm⟩
  · obtain ⟨hu, hi, hv, hn⟩ := ha
    have hboth (hnull : a ≠ .null) (hundefined : a ≠ .undefined) (hunknown : a ≠ .unknown)
        (hr : (Rules.objectSubtype h.answers a tag props).run = true) : h.Fits a tag props := by
      rw [Rules.run_objectSubtype _ _ hnull hundefined, Bool.and_eq_true_iff] at hr
      exact ⟨hnull, hundefined, hunknown, hr.1, propFits_iff.2 hr.2⟩
    cases a with
    | union ms => simp [isUnion] at hu
    | inter ms => simp [isInter] at hi
    | var name bound => simp [isVar] at hv
    | never => simp [isNever] at hn
    | null | undefined | unknown =>
      simp [Rules.subtypeRule, Rules.rightSubtype, Rules.plainSubtype, Rules.objectSubtype] at hr
    | _ => exact hboth (by simp) (by simp) (by simp) hr

/-- What fits a shape is below it. -/
theorem subtype_of_fits (ha : Single a) (hf : h.Fits a tag props) : h.subtype a (.object tag props) = true := by
  obtain ⟨hu, hi, hv, hn⟩ := ha
  refine h.subtype_of_rule ?_
  have hrun : (Rules.objectSubtype h.answers a tag props).run = true := by
    rw [Rules.run_objectSubtype _ _ hf.ne_null hf.ne_undefined, hf.tag, Bool.true_and]
    exact propFits_iff.1 hf.props
  cases a with
  | union ms => simp [isUnion] at hu
  | inter ms => simp [isInter] at hi
  | var name bound => simp [isVar] at hv
  | never => simp [isNever] at hn
  | null => exact absurd rfl hf.ne_null
  | undefined => exact absurd rfl hf.ne_undefined
  | unknown => exact absurd rfl hf.ne_unknown
  | _ => exact hrun

end Hierarchy

/-! ## Arguments -/

namespace Ty

open Signature

variable {a s : Ty}

/-- An argument: a type as a universe keeps it, without type parameters and without intersections. -/
structure Plain (a : Ty) : Prop where
  named : Named a
  canonical : Canonical a
  closed : Closed a
  unmet : Unmet a

theorem Plain.part (ha : Plain a) (hs : s ∈ a.parts) : Plain s :=
  ⟨ha.named.part hs, ha.canonical.part hs, ha.closed.part hs, ha.unmet.part hs⟩

theorem Plain.leaf (ha : a ∈ atoms ∨ ∃ l, a = .literal l) : Plain a := by
  rcases ha with ha | ⟨l, rfl⟩
  · have hparts : a.parts = [] ∧ a.isInter = false ∧ a.OwnNamed := by
      simp only [atoms, List.mem_cons, List.not_mem_nil, or_false] at ha
      rcases ha with rfl | rfl | rfl | rfl | rfl | rfl | rfl <;> exact ⟨rfl, rfl, trivial⟩
    exact ⟨.intro hparts.2.2 (by simp [hparts.1]), (Built.atom ha).canonical, closed_hereditary.atom ha,
      .leaf hparts.2.1 hparts.1⟩
  · exact ⟨.intro trivial (by simp [parts]), .of_parts_nil rfl rfl rfl, closed_hereditary.literal l, .leaf rfl rfl⟩

theorem Plain.single (ha : Plain a) (hno : a.isUnion = false) (hnever : a.isNever = false) :
    Hierarchy.Single a := by
  refine ⟨hno, ha.unmet.own, ?_, hnever⟩
  cases a with
  | var name bound => exact absurd ha.closed (not_closed_var name bound)
  | _ => rfl

theorem matchedParts_of_not_union (hno : a.isUnion = false) : matchedParts a = [a] := by
  cases a with
  | union ms => simp [isUnion] at hno
  | _ => rfl

/-- The parts of an argument that are matched one by one are arguments, and no unions. -/
theorem Plain.matchedParts (ha : Plain a) (hs : s ∈ matchedParts a) : Plain s ∧ s.isUnion = false := by
  by_cases hunion : a.isUnion = true
  · cases a with
    | union ms => exact ⟨ha.part hs, (isMember_iff.1 (ha.canonical.flat s hs)).1⟩
    | _ => simp [isUnion] at hunion
  · rw [Bool.not_eq_true] at hunion
    rw [matchedParts_of_not_union hunion] at hs
    obtain rfl := List.mem_singleton.1 hs
    exact ⟨ha, hunion⟩

/-- The property of a single argument is a part of it, or a length. -/
theorem Plain.propertyOf {h : Hierarchy} (ha : Plain a) (hno : a.isUnion = false) {name : Text} {q : Property Ty}
    (hq : h.propertyOf a name = some q) : q.type ∈ a.parts ∨ q.type = .number ∨ ∃ l, q.type = .literal l := by
  rw [Hierarchy.propertyOf_knot] at hq
  cases a with
  | object tag props => exact .inl (List.mem_map_of_mem (findProp?_some hq).1)
  | tuple _ _ | string =>
    simp only [Rules.propertyStep, Ideal.run_pure] at hq
    split at hq
    · obtain rfl := Option.some.inj hq
      exact .inr (.inl rfl)
    · simp at hq
  | literal l =>
    cases l with
    | text value =>
      rw [Rules.propertyStep] at hq
      split at hq
      · obtain rfl := Option.some.inj hq
        exact .inr (.inr ⟨_, rfl⟩)
      · simp at hq
    | _ => simp [Rules.propertyStep] at hq
  | union ms => simp [isUnion] at hno
  | inter ms => simpa [isInter] using ha.unmet.own
  | var name bound => exact absurd ha.closed (not_closed_var name bound)
  | _ => simp [Rules.propertyStep] at hq

theorem Plain.of_propertyOf {h : Hierarchy} (ha : Plain a) (hno : a.isUnion = false) {name : Text}
    {q : Property Ty} (hq : h.propertyOf a name = some q) : Plain q.type := by
  rcases ha.propertyOf hno hq with hpart | hnumber | hliteral
  · exact ha.part hpart
  · exact .leaf (.inl (by simp [hnumber, atoms]))
  · exact .leaf (.inr hliteral)

/-- The types of a tuple are arguments. -/
theorem Plain.elemAt {elems : List (Elem Ty)} {rest : Option Ty} (ha : Plain (.tuple elems rest)) {i : Nat}
    (hs : elemAt elems rest i = some s) : Plain s := by
  refine ha.part ?_
  rcases Option.or_eq_some_iff.1 hs with hat | ⟨-, hrest⟩
  · obtain ⟨e, he, rfl⟩ := Option.map_eq_some_iff.1 hat
    exact List.mem_append_left _ (List.mem_map_of_mem (List.mem_of_getElem? he))
  · exact List.mem_append_right _ (Option.mem_toList.2 hrest)

/-- Elements that fit one tuple fit another with the same marks if each type that was compared fits there. -/
theorem ElemsFit.map_right {R : Ty → Ty → Prop} {f g : Ty → Ty} {ra rest : Option Ty} {as elems : List (Elem Ty)}
    (hf : ElemsFit R ra (rest.map f) as (elems.map fun e => { e with type := f e.type }))
    (hpos : ∀ (i : Nat) (e : Elem Ty) (s : Ty), elems[i]? = some e → Ty.elemAt as ra i = some s → R s (f e.type) →
      R s (g e.type))
    (hrest : ∀ r ∈ rest, ∀ s ∈ (as.drop elems.length).map (·.type) ++ ra.toList, R s (f r) → R s (g r)) :
    ElemsFit R ra (rest.map g) as (elems.map fun e => { e with type := g e.type }) := by
  induction elems generalizing as with
  | nil =>
    induction as with
    | nil =>
      cases hf with
      | rests hR =>
        refine .rests fun s hs => ?_
        obtain ⟨t, ht, hst⟩ := hR s hs
        obtain ⟨r, hr, rfl⟩ := Option.map_eq_some_iff.1 ht
        exact ⟨g r, by simp [Option.mem_def.1 hr], hrest r hr s (by simpa using hs) hst⟩
    | cons a as ih =>
      cases hf with
      | left ht hR hf =>
        obtain ⟨r, hr, rfl⟩ := Option.map_eq_some_iff.1 ht
        refine .left (by simp [Option.mem_def.1 hr]) (hrest r hr _ (by simp) hR) (ih hf (by simp) ?_)
        exact fun r hr s hs => hrest r hr s (.tail _ hs)
  | cons e elems ih =>
    cases hf with
    | both ho hR hf =>
      exact .both ho (hpos 0 e _ rfl rfl hR) (ih hf (fun i e' s he hs => hpos (i + 1) e' s he hs) hrest)
    | right ho hR hf =>
      refine .right ho (fun s hs => hpos 0 e s rfl hs (hR s hs)) (ih hf (fun i e' s he hs => ?_) ?_)
      · exact hpos (i + 1) e' s he hs
      · simpa using hrest

end Ty

namespace Hierarchy

/-- A type is below one that is no union exactly if its alternatives are. -/
theorem subtype_matchedParts {h : Hierarchy} {a b : Ty} (hu : b.isUnion = false) (hn : b.isNever = false) :
    h.subtype a b = true ↔ ∀ part ∈ Signature.matchedParts a, h.subtype part b = true := by
  cases a with
  | union ms =>
    constructor
    · intro hs part hp
      refine subtype_of_mem_members (fun hk => ?_) hs hp
      have hhead := head_eq_of_key_eq hk
      cases b with
      | union _ => simp [isUnion] at hu
      | literal l => cases l <;> simp [head] at hhead
      | _ => simp [head] at hhead
    · exact h.union_subtype hn
  | _ => simp [Signature.matchedParts]

end Hierarchy

/-! ## Accepted arguments -/

namespace Universe

open Signature Hierarchy

variable {h : Hierarchy} {u : Universe} {a param : Ty} {subst subst' : Subst} {vars : List Ty} {R : Ty → Ty → Prop}

theorem Sound.plain (hu : u.Sound h) (ha : u.Keeps a) (hclosed : Closed a) (hunmet : Unmet a) : Plain a :=
  ⟨hu.named ha, hu.canonical ha, hclosed, hunmet⟩

theorem Sound.replaced_named (hu : u.Sound h) (hsubst : ∀ b ∈ subst, u.Keeps b.type) (hp : u.Keeps param) :
    Named (h.replaced subst param) :=
  ((yields_rebuild hsubst hp) u hu (.refl h u)).2.2.named

/-- Arguments that feed the type and are accepted for some replacements are accepted for others. -/
def Carries (h : Hierarchy) (R : Ty → Ty → Prop) (subst subst' : Subst) (param : Ty) : Prop :=
  ∀ {a : Ty}, Plain a → Fed h R param a → h.subtype a (h.replaced subst param) = true →
    h.subtype a (h.replaced subst' param) = true

/-- It is enough to look at each alternative of the argument by itself. -/
theorem subtype_of_parts {s t : Ty} (ha : Plain a) (hs : s.isUnion = false ∧ s.isNever = false)
    (ht : t.isUnion = false ∧ t.isNever = false) (hle : h.subtype a s = true)
    (hparts : ∀ part ∈ matchedParts a, Plain part → Single part → h.subtype part s = true →
      h.subtype part t = true) : h.subtype a t = true := by
  rw [subtype_matchedParts ht.1 ht.2]
  intro part hpart
  obtain ⟨hplain, hno⟩ := ha.matchedParts hpart
  by_cases hnever : part.isNever = true
  · cases part with
    | never => exact h.never_subtype _
    | _ => simp [isNever] at hnever
  · exact hparts part hpart hplain (hplain.single hno (by simpa using hnever))
      ((subtype_matchedParts hs.1 hs.2).1 hle part hpart)

theorem carries_tuple {elems : List (Elem Ty)} {rest : Option Ty}
    (hnamed : Named (h.replaced subst (.tuple elems rest))) (ihe : ∀ e ∈ elems, Carries h R subst subst' e.type)
    (ihr : ∀ t ∈ rest, Carries h R subst subst' t) : Carries h R subst subst' (.tuple elems rest) := by
  intro a ha hfed hs
  cases hfed with
  | closed ht => rwa [replaced_of_closed ht subst' subst]
  | tuple he hr =>
    rw [replaced_tuple] at hs hnamed ⊢
    refine subtype_of_parts ha ⟨rfl, rfl⟩ ⟨rfl, rfl⟩ hs fun part hpart hplain hsingle hle => ?_
    obtain ⟨as, ra, rfl, hfit⟩ := elemsFit_of_subtype hsingle hplain.named hnamed hle
    -- the elements are compared position by position, and so are they fed
    refine subtype_of_elemsFit (hfit.map_right (fun i e s hi hat hle => ?_) fun r hmem s hat hle => ?_)
    · exact ihe e (List.mem_of_getElem? hi) (hplain.elemAt hat) (he _ hpart as ra rfl i e s hi hat) hle
    · refine ihr r hmem (hplain.part ?_) (hr _ hpart as ra rfl r hmem s hat) hle
      rcases List.mem_append.1 hat with hat | hat
      · obtain ⟨e, hdrop, rfl⟩ := List.mem_map.1 hat
        exact List.mem_append_left _ (List.mem_map_of_mem (List.mem_of_mem_drop hdrop))
      · exact List.mem_append_right _ hat

theorem carries_object {tag : String} {props : List (Property Ty)}
    (hsorted : props.Pairwise fun p q => p.name < q.name) (hnamed : Named (h.replaced subst (.object tag props)))
    (ihp : ∀ p ∈ props, Carries h R subst subst' p.type) : Carries h R subst subst' (.object tag props) := by
  intro a ha hfed hs
  cases hfed with
  | closed ht => rwa [replaced_of_closed ht subst' subst]
  | object hprops =>
    have hnames : ((props.map fun p => { p with type := h.replaced subst p.type }).map (·.name)).Nodup := by
      rw [List.map_map, List.nodup_iff_pairwise_ne, List.pairwise_map]
      have hne {p q : Property Ty} (hlt : p.name < q.name) : p.name ≠ q.name := by
        intro heq
        rw [heq] at hlt
        exact Text.lt_irrefl _ hlt
      exact hsorted.imp hne
    rw [replaced_object] at hs hnamed ⊢
    refine subtype_of_parts ha ⟨rfl, rfl⟩ ⟨rfl, rfl⟩ hs fun part hpart hplain hsingle hle => ?_
    have hfits := fits_of_subtype hsingle hplain.named hnamed (TypeStore.sortProps_increasing _) hle
    refine subtype_of_fits hsingle ⟨hfits.ne_null, hfits.ne_undefined, hfits.ne_unknown, hfits.tag, ?_⟩
    intro pb hpb
    -- only the types of properties are replaced, so both sides ask for the same ones
    obtain ⟨p, hmem, rfl⟩ := List.mem_map.1 (TypeStore.mem_of_mem_sortProps hpb)
    have hone := hfits.props _ ((TypeStore.mem_sortProps_iff hnames).2 (List.mem_map_of_mem hmem))
    unfold PropFits at hone ⊢
    dsimp only at hone ⊢
    cases hq : h.propertyOf part p.name with
    | none => simpa [hq] using hone
    | some q =>
      rw [hq] at hone
      exact ⟨hone.1, hone.2.1, ihp p hmem (hplain.of_propertyOf hsingle.not_union hq)
        (hprops part hpart p hmem q hq) hone.2.2⟩

/-- **An argument that is accepted for some replacements is accepted for others** that are above the parts of the
argument that the type parameters are matched with. -/
theorem Sound.subtype_replaced (hu : u.Sound h) (hsubst : ∀ b ∈ subst, u.Keeps b.type)
    (hR : ∀ name x, R (.var name none) x → Plain x → h.subtype x (h.replaced subst' (.var name none)) = true)
    (hp : u.Keeps param) (hcov : Covariant vars param) : Carries h R subst subst' param := by
  induction hcov with
  | closed ht =>
    intro a _ _ hs
    rwa [replaced_of_closed ht subst' subst]
  | @param name hv =>
    intro a ha hfed _
    cases hfed with
    | closed ht => exact absurd ht (not_closed_var _ _)
    | param hmatched => exact hR name a hmatched ha
  | tuple _ _ ihe ihr =>
    refine carries_tuple (hu.replaced_named hsubst hp) (fun e hmem => ihe e hmem ?_) fun t hmem => ihr t hmem ?_
    · exact hu.part hp _ (List.mem_append_left _ (List.mem_map_of_mem hmem))
    · exact hu.part hp _ (List.mem_append_right _ (Option.mem_toList.2 hmem))
  | object _ ihp =>
    refine carries_object (hu.orderly hp) (hu.replaced_named hsubst hp) fun p hmem => ihp p hmem ?_
    exact hu.part hp _ (List.mem_map_of_mem hmem)

end Universe
end FlowTyping
