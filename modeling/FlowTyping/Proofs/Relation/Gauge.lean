import FlowTyping.Proofs.Relation.Units
import FlowTyping.Proofs.Relation.Untagged
import FlowTyping.Proofs.Ty.Lucid

/-!
# Meets with the type of numbers

Texts, tuples and arrays have a `length`, which is a number. So where an intersection looks that property up in
several members, types are met with `number`, and nothing but numbers comes of it.

* **`Ty.Level`** — types of which all but one are `number`, such as the members of an intersection have under
  one name.
* **`Hierarchy.settled_number`** — of members among which is a number a single one is left, a number.
* **`Hierarchy.numeric_intersect`** — a type met with a numeric one is numeric.
* **`Hierarchy.level_found`** — what members that do not combine have under one name can be met.
-/

namespace FlowTyping

open Ty

namespace Ty

variable {t : Ty}

/-- The type of numbers, or one number. -/
def IsNumber (t : Ty) : Prop := t = .number ∨ ∃ n, t = .literal (.number n)

theorem IsNumber.numeric (ht : t.IsNumber) : Numeric t := by
  rcases ht with rfl | ⟨n, rfl⟩
  · exact .number
  · exact .literal n

/-- One alternative, which is neither put together nor a type parameter. -/
def Concrete (t : Ty) : Prop := t.isMember = true ∧ t.isInter = false ∧ ∀ name bound, t ≠ .var name bound

/-- The type of all values of a sort other than objects. -/
def ofSort : ValueSort → Ty
  | .null => .null
  | .undefined => .undefined
  | .boolean => .boolean
  | .number => .number
  | .string => .string
  | .object => .unknown

theorem Concrete.sort (ht : t.Concrete) : ∃ s, t.sort? = some s := by
  obtain ⟨hmember, hinter, hvar⟩ := ht
  cases t with
  | never | unknown | union _ => simp [isMember, isUnion, isNever, isUnknown] at hmember
  | inter _ => simp [isInter] at hinter
  | var name bound => exact absurd rfl (hvar name bound)
  | literal l => cases l <;> exact ⟨_, rfl⟩
  | _ => exact ⟨_, rfl⟩

/-- What holds other values than objects is an atom or one of its literals. -/
theorem Concrete.of_sort {s : ValueSort} (ht : t.Concrete) (hs : t.sort? = some s) (hne : s ≠ .object) :
    t = ofSort s ∨ ∃ l, t = .literal l ∧ l.base = ofSort s := by
  obtain ⟨hmember, hinter, hvar⟩ := ht
  cases t with
  | never | unknown | union _ => simp [isMember, isUnion, isNever, isUnknown] at hmember
  | inter _ => simp [isInter] at hinter
  | var name bound => exact absurd rfl (hvar name bound)
  | object _ _ | tuple _ _ | function _ _ => exact absurd (Option.some.inj hs).symm hne
  | literal l =>
    refine .inr ⟨l, rfl, ?_⟩
    cases l <;> obtain rfl := Option.some.inj hs <;> rfl
  | _ =>
    obtain rfl := Option.some.inj hs
    exact .inl rfl

end Ty

namespace Hierarchy

variable {h : Hierarchy} {a b t : Ty} {ms : List Ty}

/-- Only a number is below a number. -/
theorem isNumber_of_subtype (ha : a.Concrete) (hb : b.IsNumber) (hs : h.subtype a b = true) : a.IsNumber := by
  rw [subtype_knot, Rules.run_subtypeStep, Bool.or_eq_true, decide_eq_true_eq] at hs
  rcases hs with hkey | hrule
  · rwa [hb.numeric.sole a hkey]
  · obtain ⟨hmember, hinter, hvar⟩ := ha
    rcases hb with rfl | ⟨n, rfl⟩
    · cases a with
      | literal l =>
        cases l with
        | number n => exact .inr ⟨n, rfl⟩
        | _ =>
          rw [show (Rules.subtypeRule h.answers (.literal _) .number).run = false from rfl] at hrule
          cases hrule
      | var name bound => exact absurd rfl (hvar name bound)
      | number => exact .inl rfl
      | never | unknown | union _ => simp [isMember, isUnion, isNever, isUnknown] at hmember
      | inter _ => simp [isInter] at hinter
      | _ => simp [Rules.subtypeRule, Rules.rightSubtype, Rules.plainSubtype] at hrule
    · cases a with
      | var name bound => exact absurd rfl (hvar name bound)
      | never | unknown | union _ => simp [isMember, isUnion, isNever, isUnknown] at hmember
      | inter _ => simp [isInter] at hinter
      | _ => simp [Rules.subtypeRule, Rules.rightSubtype, Rules.plainSubtype] at hrule

/-- **Two members that do not combine are shapes, tuples or functions.** -/
theorem sort_of_apart (ha : a.Concrete) (hb : b.Concrete) (hc : (Rules.combine h.answers a b).run = .apart) :
    a.sort? = some .object ∧ b.sort? = some .object := by
  obtain ⟨hab, hba, hdisjoint, -⟩ := Rules.combine_eq_apart_iff.1 hc
  have hsort : ¬ (a.differInSort b = true ∨ a.isLiteral = true ∧ b.isLiteral = true) := fun hs => by
    simp [h.disjoint_of_sort ha.1 hb.1 hab hba hs] at hdisjoint
  obtain ⟨s, hs⟩ := ha.sort
  obtain ⟨t, ht⟩ := hb.sort
  obtain rfl : s = t := by
    by_contra hne
    exact hsort (.inl (by simp [differInSort, hs, ht, hne]))
  by_cases hobject : s = .object
  · exact ⟨hobject ▸ hs, hobject ▸ ht⟩
  · exfalso
    have hbase (l : Literal) : h.subtype (.literal l) l.base = true := h.literal_subtype_base l
    rcases ha.of_sort hs hobject with rfl | ⟨l, rfl, hl⟩ <;> rcases hb.of_sort ht hobject with rfl | ⟨l', rfl, hl'⟩
    · rw [h.subtype_of_key_eq rfl] at hab
      cases hab
    · rw [← hl', hbase] at hba
      cases hba
    · rw [← hl, hbase] at hab
      cases hab
    · exact hsort (.inr ⟨rfl, rfl⟩)

theorem IsNumber.not_apart (hb : b.IsNumber) (ha : a.Concrete) :
    (Rules.combine h.answers a b).run ≠ .apart ∧ (Rules.combine h.answers b a).run ≠ .apart := by
  have hnumber : b.Concrete ∧ b.sort? = some .number := by
    rcases hb with rfl | ⟨n, rfl⟩ <;> exact ⟨⟨rfl, rfl, by simp⟩, rfl⟩
  refine ⟨fun hc => ?_, fun hc => ?_⟩
  · have hsort := (sort_of_apart ha hnumber.1 hc).2
    rw [hnumber.2] at hsort
    cases hsort
  · have hsort := (sort_of_apart hnumber.1 ha hc).1
    rw [hnumber.2] at hsort
    cases hsort

/-- What a number is combined into is a number. -/
theorem isNumber_of_combine (ha : a.Concrete) (hb : b.Concrete) (hnumber : a.IsNumber ∨ b.IsNumber)
    (hc : (Rules.combine h.answers a b).run = .into t) : t.IsNumber := by
  rw [Rules.run_combine, Ideal.run_answers_subtype, Ideal.run_answers_subtype] at hc
  split at hc
  · rename_i hab
    obtain rfl : a = t := by simpa using hc
    exact hnumber.elim id fun hb => isNumber_of_subtype ha hb hab
  · split at hc
    · rename_i hba
      obtain rfl : b = t := by simpa using hc
      exact hnumber.elim (fun ha => isNumber_of_subtype hb ha hba) id
    · split at hc
      · simp at hc
      · obtain ⟨_, _, _, _, _, _, rfl, rfl, -⟩ := Rules.mergeObjects_into _ hc
        rcases hnumber with (h | ⟨_, h⟩) | (h | ⟨_, h⟩) <;> simp at h

theorem single_of_combine (ha : a.Concrete) (hb : b.Concrete)
    (hc : (Rules.combine h.answers a b).run = .into t) : t.Concrete := by
  rcases Rules.combine_into _ hc with rfl | rfl | hm
  · exact ha
  · exact hb
  · obtain ⟨_, _, _, _, _, _, -, -, -, -, rfl⟩ := Rules.mergeObjects_into _ hm
    exact ⟨rfl, rfl, by simp⟩

/-- **Of members among which is a number a single one is left, a number.** -/
theorem settled_number {members : List Ty} (hsingle : ∀ m ∈ ms, m.Concrete) (hnumber : ∃ m ∈ ms, m.IsNumber)
    (hs : Rules.Settled h.answers ms (some members)) : ∃ m, members = [m] ∧ m.IsNumber := by
  generalize hresult : some members = result at hs
  induction hs with
  | @done ms hapart =>
    obtain rfl := Option.some.inj hresult
    obtain ⟨m, hm, hnumber⟩ := hnumber
    obtain ⟨before, after, rfl⟩ := List.append_of_mem hm
    obtain ⟨-, htail, hcross⟩ := List.pairwise_append.1 hapart
    -- a number combines with every other member, so where none combine it is alone
    have hbefore : before = [] := List.eq_nil_iff_forall_not_mem.2 fun x hx =>
      (IsNumber.not_apart hnumber (hsingle x (by simp [hx]))).1 (hcross x hx m (by simp))
    have hafter : after = [] := List.eq_nil_iff_forall_not_mem.2 fun x hx =>
      (IsNumber.not_apart hnumber (hsingle x (by simp [hx]))).2 ((List.pairwise_cons.1 htail).1 x hx)
    exact ⟨m, by simp [hbefore, hafter], hnumber⟩
  | empty _ _ => simp at hresult
  | round hf _ ih =>
    -- the number stays a member in each round, or the two that combine come to a number
    refine ih (hf.forall (fun a b t ha hb hc => single_of_combine ha hb hc) hsingle) ?_ hresult
    cases hf with
    | @fused before between after a b t heq hc =>
      subst heq
      obtain ⟨m, hm, hnumber⟩ := hnumber
      have hinto (hab : a.IsNumber ∨ b.IsNumber) :=
        isNumber_of_combine (hsingle a (by simp)) (hsingle b (by simp)) hab hc
      rcases (by simpa using hm : m ∈ before ∨ m = a ∨ m ∈ between ∨ m = b ∨ m ∈ after) with
        hm | rfl | hm | rfl | hm
      · exact ⟨m, by simp [hm], hnumber⟩
      · exact ⟨t, by simp, hinto (.inl hnumber)⟩
      · exact ⟨m, by simp [hm], hnumber⟩
      · exact ⟨t, by simp, hinto (.inr hnumber)⟩
      · exact ⟨m, by simp [hm], hnumber⟩

/-- A union of numeric types is numeric. -/
theorem numeric_union {ts : List Ty} (hts : ∀ t ∈ ts, Numeric t) : Numeric (h.union ts) := by
  have hnumber {x t : Ty} (ht : Numeric t) (hx : Alternative x t) : x.IsNumber := by
    rcases ht.cases with rfl | rfl | ⟨n, rfl⟩ | ⟨ms, rfl⟩
    · obtain ⟨rfl, hnever⟩ := (Alternative.iff_of_not_union rfl).1 hx
      simp [isNever] at hnever
    · obtain ⟨rfl, -⟩ := (Alternative.iff_of_not_union rfl).1 hx
      exact .inl rfl
    · obtain ⟨rfl, -⟩ := (Alternative.iff_of_not_union rfl).1 hx
      exact .inr ⟨n, rfl⟩
    · obtain ⟨m, hm, hx⟩ := Alternative.union_iff.1 hx
      have hmember := ht m hm
      have hnot : m.isUnion = false := by rcases hmember with rfl | ⟨n, rfl⟩ <;> rfl
      obtain ⟨rfl, -⟩ := (Alternative.iff_of_not_union hnot).1 hx
      exact hmember
  intro m hm
  rcases of_mem_members_union hm with ⟨t, ht, hx⟩ | ⟨rfl, hboth⟩
  · exact hnumber (hts t ht) hx
  · obtain ⟨t, ht, y, hy, hkey⟩ := hboth true
    have heq := sole_literal _ y hkey
    subst heq
    rcases hnumber (hts t ht) hy with hy | ⟨n, hy⟩ <;> simp at hy

/-- What is left of gauged types, among them a numeric one, when they are taken apart. -/
theorem gauged_pieces {n : Nat} {ts flat : List Ty} (hts : ∀ t ∈ ts, Lucid t ∧ t.Shallow n)
    (hnumeric : ∃ t ∈ ts, Numeric t) (hflat : conjunctsAll ts = some flat) :
    (∀ x ∈ dedup flat, Lucid x ∧ x.isInter = false ∧ x.isUnknown = false ∧ x.isNever = false) ∧
      ∃ x ∈ dedup flat, Numeric x := by
  have hparted := parted_of_conjunctsAll hflat
  refine ⟨fun x hx => ?_, ?_⟩
  · obtain ⟨t, ht, hconj⟩ := (hparted.2 x).1 (mem_of_mem_dedup hx)
    refine ⟨hconj.of_inter_closed (fun ms hms m hm => hms.part hm) (hts t ht).1, hconj.isInter,
      hconj.isUnknown, ?_⟩
    cases x with
    | never => exact absurd hconj (hparted.1 t ht)
    | _ => rfl
  · obtain ⟨t, ht, htn⟩ := hnumeric
    have hplain : t = .never ∨ t.isInter = false ∧ t.isUnknown = false := by
      rcases htn.cases with rfl | rfl | ⟨m, rfl⟩ | ⟨ms, rfl⟩
      · exact .inl rfl
      · exact .inr ⟨rfl, rfl⟩
      · exact .inr ⟨rfl, rfl⟩
      · exact .inr ⟨rfl, rfl⟩
    rcases hplain with rfl | ⟨hi, hu⟩
    · exact absurd (.self rfl rfl) (hparted.1 _ ht)
    · obtain ⟨x, hx, hkey⟩ := exists_mem_dedup ((hparted.2 t).2 ⟨t, ht, .self hi hu⟩)
      exact ⟨x, hx, htn.sole x hkey ▸ htn⟩

/-- A meet with a numeric type is numeric, if those are where a union among the pieces is spread. -/
theorem numeric_met {n : Nat} {ts : List Ty} {met : Ty} (hts : ∀ t ∈ ts, Lucid t ∧ t.Shallow n)
    (hnumeric : ∃ t ∈ ts, Numeric t) (hmet : Rules.Met h.answers ts met)
    (hless : ∀ us : List Ty, (∀ t ∈ us, Lucid t ∧ t.Shallow n) → (∃ t ∈ us, Numeric t) →
      Rules.intersectRank n us < Rules.intersectRank n ts → Numeric (h.intersect us)) : Numeric met := by
  cases hmet with
  | never _ _ => exact .never
  | excluded _ _ _ => exact .never
  | @spread flat us before after hflat hspread =>
    obtain ⟨hall, x, hx, hxn⟩ := gauged_pieces hts hnumeric hflat
    have hshallow (t) (ht : t ∈ ts) := (hts t ht).2
    refine numeric_union fun t ht => ?_
    obtain ⟨y, hy, rfl⟩ := List.mem_map.1 ht
    rw [Ideal.run_answers_intersect]
    refine hless _ (fun t ht => ⟨?_, ?_⟩) ?_ (Rules.intersectRank_spread hshallow hflat hspread hy)
    · rw [hspread] at hall
      rcases List.mem_cons.1 ht with rfl | ht
      · exact (hall (.union us) (by simp)).1.part hy
      · rcases List.mem_append.1 ht with ht | ht
        · exact (hall t (by simp [ht])).1
        · exact (hall t (by simp [ht])).1
    · exact (Rules.bounded_of_spread hshallow hflat hspread hy t ht).shallow
    · -- the numeric piece is still there, or it was the union itself
      rw [hspread] at hx
      rcases (by simpa using hx : x ∈ before ∨ x = .union us ∨ x ∈ after) with hx | rfl | hx
      · exact ⟨x, by simp [hx], hxn⟩
      · exact ⟨y, by simp, (show y.IsNumber from hxn y hy).numeric⟩
      · exact ⟨x, by simp [hx], hxn⟩
  | @settled flat members hflat hunion hsettled =>
    obtain ⟨hall, x, hx, hxn⟩ := gauged_pieces hts hnumeric hflat
    -- no union is left to spread, so the numeric piece is `number` or a literal
    have hnumber : x.IsNumber := by
      rcases hxn.cases with rfl | rfl | ⟨m, rfl⟩ | ⟨ms, rfl⟩
      · simpa [isNever] using (hall _ hx).2.2.2
      · exact .inl rfl
      · exact .inr ⟨m, rfl⟩
      · simpa [isUnion] using hunion _ hx
    have hsingle (y : Ty) (hy : y ∈ dedup flat) : y.Concrete := by
      obtain ⟨hlucid, hi, hu, hn⟩ := hall y hy
      refine ⟨isMember_iff.2 ⟨hunion y hy, hn, hu⟩, hi, ?_⟩
      rintro name bound rfl
      exact hlucid.own
    obtain ⟨m, rfl, hm⟩ := settled_number hsingle ⟨x, hx, hnumber⟩ hsettled
    exact hm.numeric

/-- **A type met with a numeric one is numeric.** -/
theorem numeric_intersect {n : Nat} {ts : List Ty} (hts : ∀ t ∈ ts, Lucid t ∧ t.Shallow n)
    (hnumeric : ∃ t ∈ ts, Numeric t) : Numeric (h.intersect ts) := by
  -- a union among the pieces is spread, and then there is less to be spread
  induction hk : Rules.intersectRank n ts using Nat.strongRecOn generalizing ts with
  | _ k ih =>
    rw [intersect_knot]
    exact numeric_met hts hnumeric (Rules.intersectStep_met _ _) fun us hus hnum hlt => ih _ (hk ▸ hlt) hus hnum rfl

theorem intersect_numbers : h.intersect [.number, .number] = .number :=
  intersect_single (show conjunctsAll _ = some [.number, .number] from rfl) (by rw [dedup_pair, if_pos rfl]) rfl

end Hierarchy

/-! ## What members have under one name -/

namespace Ty

variable {a b : Ty} {ts : List Ty}

/-- Lucid types, all but one of which are `number`. -/
structure Level (ts : List Ty) : Prop where
  lucid : ∀ t ∈ ts, Lucid t
  number : ts.Pairwise fun s t => s = .number ∨ t = .number

/-- Two of the types are met in a number. -/
theorem Level.numeric {h : Hierarchy} (hab : Level [a, b]) : Numeric (h.intersect [a, b]) := by
  refine Hierarchy.numeric_intersect (n := sizeAll [a, b])
    (fun t ht => ⟨hab.lucid t ht, Rules.shallow_of_mem ht⟩) ?_
  rcases (List.pairwise_cons.1 hab.number).1 b (by simp) with rfl | rfl
  · exact ⟨_, by simp, .number⟩
  · exact ⟨_, by simp, .number⟩

theorem Level.pair (hts : Level (a :: b :: ts)) : Level [a, b] :=
  have hsub : [a, b].Sublist (a :: b :: ts) := ((List.nil_sublist ts).cons_cons b).cons_cons a
  ⟨fun t ht => hts.lucid t (hsub.mem ht), hts.number.sublist hsub⟩

/-- Two of the types may be met in place of both. -/
theorem Level.intersect (hts : Level (a :: b :: ts)) (h : Hierarchy) : Level (h.intersect [a, b] :: ts) := by
  obtain ⟨hfirst, hrest⟩ := List.pairwise_cons.1 hts.number
  obtain ⟨hsecond, hrest⟩ := List.pairwise_cons.1 hrest
  have hnumeric : Numeric (h.intersect [a, b]) := hts.pair.numeric
  refine ⟨?_, .cons (fun t ht => ?_) hrest⟩
  · rintro t (_ | ⟨_, ht⟩)
    · exact hnumeric.lucid
    · exact hts.lucid t (.tail _ (.tail _ ht))
  · rcases hfirst t (by simp [ht]) with rfl | ht'
    · rcases hsecond t ht with rfl | ht'
      · exact .inl (h.intersect_numbers)
      · exact .inr ht'
    · exact .inr ht'

end Ty

namespace Hierarchy

variable {h : Hierarchy} {a b t : Ty} {ms : List Ty} {name : Text} {p : Property Ty}

/-- The property of a lucid type that is not put together is lucid. -/
theorem lucid_property_of_plain (ht : Lucid t) (hunion : t.isUnion = false) (hinter : t.isInter = false)
    (hp : h.propertyOf t name = some p) : Lucid p.type := by
  rw [propertyOf_knot] at hp
  cases t with
  | object tag props =>
    have hfind : findProp? props name = some p := by simpa [Rules.propertyStep] using hp
    exact ht.part (List.mem_map_of_mem (findProp?_some hfind).1)
  | tuple elems rest | string =>
    obtain ⟨-, rfl⟩ : name = Rules.lengthName ∧ _ = p := by simpa [Rules.propertyStep] using hp
    exact Numeric.number.lucid
  | literal l =>
    cases l with
    | text value =>
      obtain ⟨-, rfl⟩ : name = Rules.lengthName ∧ _ = p := by simpa [Rules.propertyStep] using hp
      exact .literal _
    | _ => simp [Rules.propertyStep] at hp
  | var v bound => exact ht.own.elim
  | union _ => simp [isUnion] at hunion
  | inter _ => simp [isInter] at hinter
  | _ => simp [Rules.propertyStep] at hp

/-- Of shapes, tuples and functions, only shapes have a property other than a number. -/
theorem number_of_not_isObject (hsort : t.sort? = some .object) (hvar : t.isVar = false) (hobject : t.isObject = false)
    (hp : h.propertyOf t name = some p) : p.type = .number := by
  rw [propertyOf_knot] at hp
  cases t with
  | tuple elems rest =>
    obtain ⟨-, rfl⟩ : name = Rules.lengthName ∧ _ = p := by simpa [Rules.propertyStep] using hp
    rfl
  | function params ret => simp [Rules.propertyStep] at hp
  | object _ _ => simp [isObject] at hobject
  | var _ _ => simp [isVar] at hvar
  | literal l => cases l <;> simp [sort?] at hsort
  | _ => simp [sort?] at hsort

/-- Two lucid shapes always merge. -/
theorem not_apart_of_isObject (ha : Lucid a) (hb : Lucid b) (hobject : a.isObject = true ∧ b.isObject = true) :
    (Rules.combine h.answers a b).run ≠ .apart := fun hc => by
  obtain ⟨-, -, -, hmerge⟩ := Rules.combine_eq_apart_iff.1 hc
  cases a with
  | object tag props =>
    cases b with
    | object tag' props' =>
      rw [mergeable, ha.own.1, hb.own.1] at hmerge
      simp [Rules.mergedTag] at hmerge
    | _ => simp [isObject] at hobject
  | _ => simp [isObject] at hobject

/-- **What members that do not combine have under one name**: numbers, beside one type at most. -/
theorem level_found (hms : ∀ m ∈ ms, Lucid m) (hmember : ∀ m ∈ ms, m.isMember = true ∧ m.isInter = false)
    (hsettled : SettledIn h ms) (name : Text) :
    Level ((ms.filterMap fun m => h.propertyOf m name).map (·.type)) := by
  have hsingle (m) (hm : m ∈ ms) : m.Concrete := by
    refine ⟨(hmember m hm).1, (hmember m hm).2, ?_⟩
    rintro name bound rfl
    exact (hms _ hm).own
  have hvar (m) (hm : m ∈ ms) : m.isVar = false := by
    cases m with
    | var name bound => exact (hms _ hm).own.elim
    | _ => rfl
  refine ⟨fun t ht => ?_, ?_⟩
  · obtain ⟨p, hp, rfl⟩ := List.mem_map.1 ht
    obtain ⟨m, hm, hp⟩ := List.mem_filterMap.1 hp
    exact lucid_property_of_plain (hms m hm) (isMember_iff.1 (hmember m hm).1).1 (hmember m hm).2 hp
  · rw [List.pairwise_map, List.pairwise_filterMap]
    refine hsettled.imp_of_mem fun {a b} ha hb hapart p hp q hq => ?_
    obtain ⟨hsa, hsb, hobject⟩ : a.sort? = some .object ∧ b.sort? = some .object ∧
        ¬ (a.isObject = true ∧ b.isObject = true) := by
      rcases hapart with hapart | hapart
      · have hsort := sort_of_apart (hsingle a ha) (hsingle b hb) hapart
        exact ⟨hsort.1, hsort.2, fun ho => not_apart_of_isObject (hms a ha) (hms b hb) ho hapart⟩
      · have hsort := sort_of_apart (hsingle b hb) (hsingle a ha) hapart
        exact ⟨hsort.2, hsort.1, fun ho => not_apart_of_isObject (hms b hb) (hms a ha) ho.symm hapart⟩
    cases hoa : a.isObject with
    | false => exact .inl (number_of_not_isObject hsa (hvar a ha) hoa hp)
    | true =>
      have hob : b.isObject = false := by
        cases hob : b.isObject with
        | false => rfl
        | true => exact absurd ⟨hoa, hob⟩ hobject
      exact .inr (number_of_not_isObject hsb (hvar b hb) hob hq)

/-- The types that stand level are met one after the other. -/
theorem lucid_meetProps {merged : Property Ty} {ps : List (Property Ty)}
    (hps : Level (merged.type :: ps.map (·.type))) : Lucid (Rules.meetProps h.answers merged ps).run.type := by
  induction ps generalizing merged with
  | nil => exact hps.lucid merged.type List.mem_cons_self
  | cons p ps ih =>
    rw [Rules.meetProps, Ideal.run_bind]
    refine ih ?_
    rw [Ideal.run_answers_intersect]
    exact hps.intersect h

/-- **The property of a lucid type is lucid**, unless the type is a union. -/
theorem lucid_propertyOf (ht : Lucid t) (hunion : t.isUnion = false)
    (hsettled : ∀ ms, t = .inter ms → (∀ m ∈ ms, m.isMember = true ∧ m.isInter = false) ∧ SettledIn h ms)
    (hp : h.propertyOf t name = some p) : Lucid p.type := by
  cases hinter : t.isInter with
  | false => exact lucid_property_of_plain ht hunion hinter hp
  | true =>
    cases t with
    | inter ms =>
      obtain ⟨hmember, hsettled⟩ := hsettled ms rfl
      have hlucid (m) (hm : m ∈ ms) : Lucid m := ht.part hm
      have hlevel := level_found hlucid hmember hsettled name
      rw [propertyOf_knot] at hp
      simp only [Rules.propertyStep, Ideal.run_bind, Rules.run_foundProps, Ideal.run_answers_propertyOf] at hp
      cases hfound : ms.filterMap fun m => h.propertyOf m name with
      | nil => simp [hfound] at hp
      | cons q qs =>
        rw [hfound] at hp hlevel
        obtain rfl : (Rules.meetProps h.answers q qs).run = p := by simpa using hp
        exact lucid_meetProps hlevel
    | _ => simp [isInter] at hinter

end Hierarchy
end FlowTyping
