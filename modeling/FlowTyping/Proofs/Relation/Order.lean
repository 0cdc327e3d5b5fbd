import FlowTyping.Proofs.Relation.Canonical
import Mathlib.Data.List.Pairwise

/-!
# Subtyping and unions

The subtype relation as an order in which unions are upper bounds. Two trees with one key are one type,
so the order is one of keys, and a union may stand for a member by another tree of its key, or for a
literal by its atom.

* **`Hierarchy.subtype_eq`** — the relation solves its own rule.
* **`Ty.Holds`** — a type has another among its alternatives, in one of these ways.
* **`Hierarchy.holds_union`** — a union has the alternatives of its arguments.
* **`Hierarchy.subtype_of_holds`**, **`Hierarchy.subtype_of_members`** — what has its alternatives there
  is a subtype.
* **`Ty.Apart.same_sort`** — no two members of an intersection combine, so neither is below the other and they are
  not disjoint. Types that are known to hold values of different sorts, or to be single values, are one or the
  other; so members of an intersection do not differ in sort and are not two literals.
-/

namespace FlowTyping

namespace Hierarchy

variable (h : Hierarchy) {a b t x : Ty}

/-! ## The rule of the relation -/

theorem subtype_eq (a b : Ty) :
    h.subtype a b = (decide (a.key = b.key) || (Rules.subtypeRule h.answers a b).run) := by
  rw [subtype_knot, Rules.run_subtypeStep]

theorem subtype_of_rule (hr : (Rules.subtypeRule h.answers a b).run = true) :
    h.subtype a b = true := by
  rw [subtype_eq, hr, Bool.or_true]

theorem subtype_of_key_eq (hk : a.key = b.key) : h.subtype a b = true := by
  rw [subtype_eq, decide_eq_true hk, Bool.true_or]

@[simp] theorem subtype_self (a : Ty) : h.subtype a a = true := h.subtype_of_key_eq rfl

@[simp] theorem never_subtype (b : Ty) : h.subtype .never b = true :=
  h.subtype_of_rule (by simp [Rules.subtypeRule])

@[simp] theorem subtype_unknown (a : Ty) : h.subtype a .unknown = true :=
  h.subtype_of_rule (by cases a <;> simp [Rules.subtypeRule])

/-- Nothing but `never` is below `never`. -/
theorem subtype_never_iff : h.subtype a .never = true ↔ a = .never := by
  constructor
  · intro hs
    rw [subtype_eq, Bool.or_eq_true_iff, decide_eq_true_iff] at hs
    rcases hs with hk | hr
    · exact Ty.eq_of_key_eq_atom (by simp [Ty.atoms]) hk
    · cases a with
      | never => rfl
      | _ => simp [Rules.subtypeRule] at hr
  · rintro rfl
    exact h.subtype_self _

theorem literal_subtype_base (l : Literal) : h.subtype (.literal l) l.base = true := by
  refine h.subtype_of_rule ?_
  cases l <;> simp [Rules.subtypeRule, Rules.rightSubtype, Rules.plainSubtype, Literal.base]

/-- A type below a member is below the union. -/
theorem subtype_union_of_mem {ms : List Ty} (hu : a.isUnion = false) (hk : a.isUnknown = false)
    (ht : t ∈ ms) (hs : h.subtype a t = true) : h.subtype a (.union ms) = true := by
  have hany : (ms.any fun t => h.subtype a t) = true := List.any_eq_true.2 ⟨t, ht, hs⟩
  refine h.subtype_of_rule ?_
  cases a with
  | union as => simp [Ty.isUnion] at hu
  | unknown => simp [Ty.isUnknown] at hk
  | never => simp [Rules.subtypeRule]
  | var v bound =>
    rw [Rules.subtypeRule, Rules.run_varSubtype]
    · simp only [Ideal.run_answers_subtype, Ty.isUnion, Ty.members, hany, Bool.true_and,
        Bool.true_or]
    all_goals simp
  | _ => simp [Rules.subtypeRule, Rules.rightSubtype, -List.any_eq_true, hany]

/-- A union is below what all of its members are below. -/
theorem union_subtype {ms : List Ty} (hb : b.isNever = false)
    (hms : ∀ m ∈ ms, h.subtype m b = true) : h.subtype (.union ms) b = true := by
  refine h.subtype_of_rule ?_
  cases b with
  | never => simp [Ty.isNever] at hb
  | unknown => simp [Rules.subtypeRule]
  | _ =>
    rw [Rules.subtypeRule]
    · simpa using hms
    all_goals simp

end Hierarchy

/-! ## Types among the alternatives of another -/

namespace Ty

variable {a b t x : Ty}

/-- One type stands for another in a union: it has its key, or is the atom of the literal. -/
def StandsFor (m x : Ty) : Prop := m.key = x.key ∨ ∃ l, x = .literal l ∧ m = l.base

/-- The type has `x` among its alternatives: one of its members stands for `x`, or everything is. -/
def Holds (t x : Ty) : Prop := t = .unknown ∨ ∃ m ∈ t.members, StandsFor m x

/-- The members of a union are none themselves, and neither `never` nor `unknown`. -/
def Flat : Ty → Prop
  | .union ms => ∀ m ∈ ms, m.isMember = true
  | _ => True

theorem Canonical.flat (ht : Canonical t) : t.Flat := by
  cases t with
  | union ms => exact ht.neat.2.2
  | _ => trivial

/-- The members of a flat type are its alternatives. -/
theorem Flat.alternative (ht : t.Flat) (hx : x ∈ t.members) : Alternative x t := by
  cases t with
  | never => simp [members] at hx
  | union ms =>
    have hm := isMember_iff.1 (ht x hx)
    exact .member hx (.self hm.1 hm.2.1)
  | _ =>
    obtain rfl := List.mem_singleton.1 hx
    exact .self rfl rfl

theorem Holds.of_mem (hx : x ∈ t.members) : t.Holds x := .inr ⟨x, hx, .inl rfl⟩

/-- Standing for a type is transitive: an atom has no other tree of its key and is no literal. -/
theorem StandsFor.trans {m m' : Ty} (hm' : StandsFor m' m) (hm : StandsFor m x) : StandsFor m' x := by
  rcases hm with hm | ⟨l, rfl, rfl⟩
  · rcases hm' with hm' | ⟨l, rfl, rfl⟩
    · exact .inl (hm'.trans hm)
    · obtain ⟨l', rfl, hbase⟩ := literal_of_key_eq hm.symm
      exact .inr ⟨l', rfl, hbase.symm⟩
  · rcases hm' with hm' | ⟨l', heq, -⟩
    · exact .inr ⟨l, rfl, eq_of_key_eq_atom (base_mem_atoms l) hm'⟩
    · cases l <;> simp [Literal.base] at heq

end Ty

namespace Hierarchy

open Ty

variable {h : Hierarchy} {ts : List Ty} {t u x : Ty}

/-- Every union is flat, whatever its arguments are. -/
theorem union_flat (h : Hierarchy) (ts : List Ty) : (h.union ts).Flat := by
  rcases union_cases h ts with hu | hu | ⟨ms, hu, -, -, hms⟩
  · rw [hu]
    trivial
  · cases heq : h.union ts with
    | union ms => simp [heq, isUnion] at hu
    | _ => trivial
  · rw [hu]
    exact hms

theorem holds_union_of_alternative (ht : t ∈ ts) (hx : Alternative x t) : (h.union ts).Holds x :=
  exists_mem_members_union ht hx

/-- A union has the alternatives of its arguments. -/
theorem holds_union (hf : t.Flat) (ht : t ∈ ts) (hx : t.Holds x) : (h.union ts).Holds x := by
  rcases hx with rfl | ⟨m, hm, hmx⟩
  · exact .inl (union_unknown ht (.self rfl rfl))
  · rcases holds_union_of_alternative (h := h) ht (hf.alternative hm) with hu | ⟨m', hm', hm'm⟩
    · exact .inl hu
    · exact .inr ⟨m', hm', hm'm.trans hmx⟩

theorem subtype_of_standsFor (hx : StandsFor t x) : h.subtype x t = true := by
  rcases hx with hk | ⟨l, rfl, rfl⟩
  · exact h.subtype_of_key_eq hk.symm
  · exact h.literal_subtype_base l

/-- What is among the alternatives of a type is below it. -/
theorem subtype_of_holds (hx : x.isMember = true) (ht : t.Holds x) : h.subtype x t = true := by
  rcases ht with rfl | ⟨m, hm, hmx⟩
  · exact h.subtype_unknown x
  · have hsub : h.subtype x m = true := subtype_of_standsFor hmx
    have hx := isMember_iff.1 hx
    cases t with
    | never => simp [members] at hm
    | union ms => exact h.subtype_union_of_mem hx.1 hx.2.2 hm hsub
    | _ =>
      obtain rfl := List.mem_singleton.1 hm
      exact hsub

/-- A type is below another that has all of its members. -/
theorem subtype_of_members (ht : Canonical t) (hu : u.Flat)
    (hm : ∀ m ∈ t.members, u.Holds m) : h.subtype t u = true := by
  cases t with
  | never => exact h.never_subtype u
  | unknown =>
    rcases hm .unknown (by simp [members]) with rfl | ⟨m, hmem, hk | ⟨l, hl, -⟩⟩
    · exact h.subtype_self _
    · obtain rfl : m = .unknown := eq_of_key_eq_atom (by simp [atoms]) hk
      cases u with
      | union us => exact absurd (hu _ hmem) (by decide)
      | never => simp [members] at hmem
      | _ =>
        obtain heq := List.mem_singleton.1 hmem
        rw [← heq]
        exact h.subtype_self _
    · simp at hl
  | union ms =>
    refine h.union_subtype ?_ fun m hmem => subtype_of_holds (ht.flat m hmem) (hm m hmem)
    obtain ⟨m, hmem⟩ : ∃ m, m ∈ ms := List.exists_mem_of_length_pos (by have := ht.neat.1; omega)
    rcases hm m hmem with rfl | ⟨m', hm', -⟩
    · rfl
    · cases u with
      | never => simp [members] at hm'
      | _ => rfl
  | _ => exact subtype_of_holds rfl (hm _ (by simp [members]))

/-- A union is above each of its arguments. -/
theorem subtype_union (hc : Canonical t) (ht : t ∈ ts) : h.subtype t (h.union ts) = true :=
  subtype_of_members hc (union_flat h ts) fun _ hm =>
    holds_union_of_alternative ht (hc.flat.alternative hm)

/-- A union that has both values of `boolean` has `boolean`. -/
theorem holds_boolean (hb : ∀ b, (h.union ts).Holds (.literal (.bool b))) :
    (h.union ts).Holds .boolean := by
  by_cases hunknown : h.union ts = .unknown
  · exact .inl hunknown
  have hmem (b : Bool) : ∃ m ∈ (h.union ts).members, StandsFor m (.literal (.bool b)) :=
    (hb b).resolve_left hunknown
  by_cases hboolean : Ty.boolean ∈ (h.union ts).members
  · exact .of_mem hboolean
  · refine absurd (fun b => ?_) (not_both_mem_union h ts)
    obtain ⟨m, hm, hk | ⟨l, hl, rfl⟩⟩ := hmem b
    · exact ⟨m, hm, hk⟩
    · cases hl
      exact absurd hm hboolean

end Hierarchy
end FlowTyping

/-! ## Members of one intersection -/

namespace FlowTyping

namespace Hierarchy

open Ty

variable (h : Hierarchy) {a b : Ty}

/-- Types that differ in sort, or are two literals, are disjoint unless one is below the other. -/
theorem disjoint_of_sort (ha : a.isMember = true) (hb : b.isMember = true)
    (hab : h.subtype a b = false) (hba : h.subtype b a = false)
    (hsort : a.differInSort b = true ∨ a.isLiteral = true ∧ b.isLiteral = true) :
    h.disjoint a b = true := by
  have hsame : a.same b = false := by
    cases hs : a.same b with
    | false => rfl
    | true =>
      have := h.subtype_of_key_eq (same_iff.1 hs)
      simp [hab] at this
  have hna := isMember_iff.1 ha
  have hnb := isMember_iff.1 hb
  rw [disjoint_knot, Rules.run_disjointStep]
  rcases hsort with hdiff | ⟨hla, hlb⟩
  · simp [hsame, hna, hnb, hab, hba, hdiff]
  · cases a with
    | literal l =>
      cases b with
      | literal l' => simp [hsame, hab, hba, isNever, isUnion, Rules.partsDisjoint]
      | _ => simp [isLiteral] at hlb
    | _ => simp [isLiteral] at hla

end Hierarchy

namespace Ty

variable {a b : Ty}

theorem differInSort_comm (a b : Ty) : a.differInSort b = b.differInSort a := by
  rw [differInSort, differInSort]
  cases a.sort? with
  | none => cases b.sort? <;> rfl
  | some s =>
    cases b.sort? with
    | none => rfl
    | some t => exact bne_comm

/-- Members that stayed side by side are not below each other and not disjoint. -/
theorem Apart.not_disjoint (hab : Apart a b) :
    ∃ h : Hierarchy, h.subtype a b = false ∧ h.subtype b a = false ∧
      (h.disjoint a b = false ∨ h.disjoint b a = false) := by
  obtain ⟨h, hc⟩ := hab
  have hfalse {a b : Ty} (hc : (Rules.combine h.answers a b).run = .apart) :
      h.subtype a b = false ∧ h.subtype b a = false ∧ h.disjoint a b = false := by
    rw [Rules.run_combine, Ideal.run_answers_subtype, Ideal.run_answers_subtype,
      Ideal.run_answers_disjoint] at hc
    cases hab : h.subtype a b <;> cases hba : h.subtype b a <;> cases hd : h.disjoint a b <;>
      simp [hab, hba, hd] at hc ⊢
  refine ⟨h, ?_⟩
  rcases hc with hc | hc
  · exact ⟨(hfalse hc).1, (hfalse hc).2.1, .inl (hfalse hc).2.2⟩
  · exact ⟨(hfalse hc).2.1, (hfalse hc).1, .inr (hfalse hc).2.2⟩

/-- Members of an intersection do not differ in sort and are not two literals. -/
theorem Apart.same_sort (hab : Apart a b) (ha : a.isMember = true) (hb : b.isMember = true) :
    a.differInSort b = false ∧ ¬ (a.isLiteral = true ∧ b.isLiteral = true) := by
  obtain ⟨h, hsub, hsub', hdis⟩ := hab.not_disjoint
  have hno : ¬ (a.differInSort b = true ∨ a.isLiteral = true ∧ b.isLiteral = true) := by
    intro hsort
    rcases hdis with hdis | hdis
    · simp [h.disjoint_of_sort ha hb hsub hsub' hsort] at hdis
    · have hsort' : b.differInSort a = true ∨ b.isLiteral = true ∧ a.isLiteral = true := by
        rw [differInSort_comm]
        exact hsort.imp id And.symm
      simp [h.disjoint_of_sort hb ha hsub' hsub hsort'] at hdis
  rw [not_or] at hno
  exact ⟨by simpa using hno.1, hno.2⟩

instance : Std.Symm Apart := ⟨fun _ _ => Apart.symm⟩

/-- Two different members of an intersection stayed side by side. -/
theorem Canonical.apart {ms : List Ty} (hc : Canonical (.inter ms)) (ha : a ∈ ms) (hb : b ∈ ms)
    (hne : a ≠ b) : Apart a b := by
  have hpair : ms.Pairwise Apart := hc.neat.2.2
  exact hpair.forall ha hb hne

end Ty
end FlowTyping
