import FlowTyping.Proofs.Relation.Confluence
import FlowTyping.Proofs.Relation.Greatest
import Mathlib.Data.List.Sort

/-!
# Intersections of the same types in another order

Where the order of members makes no difference, the order of types that are put together from these members
by unions and intersections makes none: an intersection is the union over the ways to choose one alternative of
each union.

* **`Ty.Simplified.key_eq`** — simplified types with the same alternatives have one key.
* **`Hierarchy.exists_choices`** — distribution over all unions at once, and **`Hierarchy.intersect_key_congr`**:
  an intersection is told by the conjuncts of its arguments.
* **`Hierarchy.Associates.of_order`** — members that do not merge may be reordered if they are ordered, and
  **`Hierarchy.Scalar.associates`**, so for atoms, literals and type parameters.
* **`Hierarchy.Associates.of_antisymm`** — record data may be reordered where no two different types are below each
  other, and **`Hierarchy.Simple.associates`**, so for shapes, which merge, with atoms, literals and shapes in them.
* **`Universe.History.intersect_reordered`** — what a universe answers, and **`Universe.lenient_not_reordered`**,
  two shapes below each other, of which the first is answered.

With unions the grouping does make a difference. Of `T | U` and `V` the intersection is `T & V | U & V`, which
intersected with `T | U` again gives `T & U & V` as well, but a repeated union among the arguments is dropped.
-/

namespace FlowTyping

open Ty

/-! ## Unions with the same alternatives -/

namespace Ty

variable {s t x : Ty} {ms : List Ty}

/-- Two types have the same alternatives. -/
def SameHolds (s t : Ty) : Prop := ∀ x, s.Holds x ↔ t.Holds x

/-- A type that is simplified if it is a union. -/
def Simplified (t : Ty) : Prop := ∀ ms, t = .union ms → UnionForm ms

namespace Simplified

theorem holds_unknown_iff (ht : t.Simplified) : t.Holds .unknown ↔ t = .unknown := by
  constructor
  · rintro (rfl | ⟨m, hm, hk | ⟨l, hl, -⟩⟩)
    · rfl
    · obtain rfl := eq_of_key_eq_atom (by simp [atoms]) hk
      cases t with
      | union ms =>
        have hmember := (ht ms rfl).member _ hm
        simp [isMember, isUnknown] at hmember
      | never => simp [members] at hm
      | _ => exact (List.mem_singleton.1 hm).symm
    · simp at hl
  · rintro rfl
    exact .inl rfl

theorem increasing (ht : t.Simplified) : t.members.Pairwise fun a b => a.key < b.key := by
  cases t with
  | union ms => exact (ht ms rfl).increasing
  | never => exact .nil
  | _ => exact List.pairwise_singleton ..

/-- A literal and its atom are not both members. -/
theorem base_not_mem (ht : t.Simplified) {l : Literal} (hl : .literal l ∈ t.members) : l.base ∉ t.members := by
  cases t with
  | union ms => exact (ht ms rfl).base_not_mem l hl
  | literal l' =>
    obtain rfl := Ty.literal.inj (List.mem_singleton.1 hl)
    intro hbase
    have heq := List.mem_singleton.1 hbase
    cases l <;> simp [Literal.base] at heq
  | never => simp [members] at hl
  | _ => simp [members] at hl

/-- What one of two types with the same alternatives has as a member has a counterpart in the other. -/
theorem exists_key_eq (hs : s.Simplified) (hst : s.SameHolds t) (hk : s ≠ .unknown) (hk' : t ≠ .unknown)
    (hx : x ∈ s.members) : ∃ y ∈ t.members, y.key = x.key := by
  obtain ⟨y, hy, hyx⟩ := ((hst x).1 (.of_mem hx)).resolve_left hk'
  obtain ⟨z, hz, hzy⟩ := ((hst y).2 (.of_mem hy)).resolve_left hk
  refine ⟨y, hy, ?_⟩
  rcases hyx with hyx | ⟨l, rfl, rfl⟩
  · exact hyx
  · -- the atom of a literal would be a member beside it
    rcases hzy with hzy | ⟨l', hl, -⟩
    · obtain rfl := eq_of_key_eq_atom (base_mem_atoms l) hzy
      exact absurd hz (hs.base_not_mem hx)
    · cases l <;> simp [Literal.base] at hl

/-- **Simplified types with the same alternatives have one key.** -/
theorem key_eq (hs : s.Simplified) (ht : t.Simplified) (hst : s.SameHolds t) : s.key = t.key := by
  have hunknown : s = .unknown ↔ t = .unknown := by
    rw [← hs.holds_unknown_iff, ← ht.holds_unknown_iff, hst]
  by_cases hk : s = .unknown
  · rw [hk, hunknown.1 hk]
  have hk' : t ≠ .unknown := fun heq => hk (hunknown.2 heq)
  have hmem (k : Text) : k ∈ s.members.map key ↔ k ∈ t.members.map key := by
    simp only [List.mem_map]
    constructor
    · rintro ⟨x, hx, rfl⟩
      exact hs.exists_key_eq hst hk hk' hx
    · rintro ⟨x, hx, rfl⟩
      exact ht.exists_key_eq (fun x => (hst x).symm) hk' hk hx
  -- both lists of keys increase, so they are one list
  have hkeys : s.members.map key = t.members.map key := by
    have hperm : (s.members.map key).Perm (t.members.map key) := by
      rw [List.perm_ext_iff_of_nodup (keys_nodup_of_increasing hs.increasing)
        (keys_nodup_of_increasing ht.increasing)]
      exact hmem
    refine hperm.eq_of_pairwise ?_ (List.pairwise_map.2 hs.increasing) (List.pairwise_map.2 ht.increasing)
    exact fun _ _ _ _ hxy hyx => absurd (Text.lt_trans hxy hyx) (Text.lt_irrefl _)
  have hlen : s.members.length = t.members.length := by
    simpa using congrArg List.length hkeys
  -- a type without members, one that is its only member, or a union, whose key is made of theirs
  have hform {t : Ty} (ht : t.Simplified) : t = .never ∧ t.members.length = 0 ∨ t.members = [t] ∨
      2 ≤ t.members.length ∧ t.key = "U(" ++ Text.joinWith "|" (t.members.map key) ++ ")" := by
    cases t with
    | never => exact .inl ⟨rfl, rfl⟩
    | union ms => exact .inr (.inr ⟨(ht ms rfl).two_le, by rw [key, keys_eq_map]; rfl⟩)
    | _ => exact .inr (.inl rfl)
  rcases hform hs with ⟨rfl, hls⟩ | hs' | ⟨hls, hs'⟩
  · rcases hform ht with ⟨rfl, -⟩ | ht' | ⟨hlt, -⟩
    · rfl
    · rw [ht', hls] at hlen
      simp at hlen
    · omega
  · rcases hform ht with ⟨-, hlt⟩ | ht' | ⟨hlt, -⟩
    · rw [hs', hlt] at hlen
      simp at hlen
    · rw [hs', ht'] at hkeys
      simpa using hkeys
    · rw [hs', List.length_singleton] at hlen
      omega
  · rcases hform ht with ⟨-, hlt⟩ | ht' | ⟨-, ht'⟩
    · omega
    · rw [ht', List.length_singleton] at hlen
      omega
    · rw [hs', ht', hkeys]

end Simplified
end Ty

namespace Hierarchy

variable {h : Hierarchy} {K D : Ty → Prop} {t u v x : Ty} {ts ts' us : List Ty}

theorem union_simplified (h : Hierarchy) (ts : List Ty) : (h.union ts).Simplified :=
  fun _ => h.union_orderly ts

/-- A union has no more than the alternatives of its arguments. -/
theorem holds_of_holds_union (hall : ∀ t ∈ ts, ∀ y, Alternative y t → (h.union ts').Holds y)
    (hx : (h.union ts).Holds x) : (h.union ts').Holds x := by
  have htrans {m : Ty} (hm : (h.union ts').Holds m) (hmx : StandsFor m x) : (h.union ts').Holds x := by
    rcases hm with hk | ⟨m', hm', hm'm⟩
    · exact .inl hk
    · exact .inr ⟨m', hm', hm'm.trans hmx⟩
  rcases hx with hk | ⟨m, hm, hmx⟩
  · have hmem : Ty.unknown ∈ (h.union ts).members := by simp [hk, members]
    rcases of_mem_members_union hmem with ⟨t, ht, halt⟩ | ⟨heq, -⟩
    · exact .inl (((union_simplified h ts').holds_unknown_iff).1 (hall t ht _ halt))
    · simp at heq
  · rcases of_mem_members_union hm with ⟨t, ht, halt⟩ | ⟨rfl, hboth⟩
    · exact htrans (hall t ht m halt) hmx
    · refine htrans (holds_boolean fun b => ?_) hmx
      obtain ⟨t, ht, y, halt, hk⟩ := hboth b
      obtain rfl := eq_bool_of_key_eq hk
      exact hall t ht _ halt

theorem union_sameHolds (hsub : ∀ t ∈ ts, ∀ y, Alternative y t → (h.union ts').Holds y)
    (hsup : ∀ t ∈ ts', ∀ y, Alternative y t → (h.union ts).Holds y) : (h.union ts).SameHolds (h.union ts') :=
  fun _ => ⟨holds_of_holds_union hsub, holds_of_holds_union hsup⟩

/-- A union of one type that is none itself has the alternatives of that type. -/
theorem sameHolds_union_singleton (hu : t.isUnion = false) : t.SameHolds (h.union [t]) := by
  have halt {y : Ty} (hy : ∃ s ∈ [t], Alternative y s) : y = t ∧ t.isNever = false := by
    obtain ⟨s, hs, hy⟩ := hy
    obtain rfl := List.mem_singleton.1 hs
    exact (Alternative.iff_of_not_union hu).1 hy
  intro x
  constructor
  · have hflat : t.Flat := by
      cases t with
      | union _ => simp [isUnion] at hu
      | _ => trivial
    exact holds_union hflat (by simp)
  · rintro (hk | ⟨m, hm, hmx⟩)
    · have hmem : Ty.unknown ∈ (h.union [t]).members := by simp [hk, members]
      rcases of_mem_members_union hmem with hy | ⟨heq, -⟩
      · exact .inl (halt hy).1.symm
      · simp at heq
    · rcases of_mem_members_union hm with hy | ⟨-, hboth⟩
      · obtain ⟨rfl, hn⟩ := halt hy
        refine .inr ⟨m, ?_, hmx⟩
        rw [members_of_not_union hu hn]
        simp
      · obtain ⟨s, hs, y, hy, hk⟩ := hboth true
        obtain ⟨s', hs', y', hy', hk'⟩ := hboth false
        obtain rfl := eq_bool_of_key_eq hk
        obtain rfl := eq_bool_of_key_eq hk'
        have heq := (halt ⟨s, hs, hy⟩).1.trans (halt ⟨s', hs', hy'⟩).1.symm
        simp at heq

/-! ## Intersections of unions -/

/-- What an intersection may have to put together: a member, or a union whose alternatives are made of
members. -/
inductive Piece (K : Ty → Prop) : Ty → Prop where
  | member {x : Ty} (hx : K x) : Piece K x
  | union {us : List Ty} (hus : ∀ u ∈ us, Over K u) : Piece K (.union us)

/-- The function chooses an alternative of each union in the list. -/
def Chooses (f : Ty → Ty) (flat : List Ty) : Prop := ∀ us, Ty.union us ∈ flat → f (.union us) ∈ us

/-- The alternative that was chosen, where there is a choice. -/
def pick (f : Ty → Ty) (x : Ty) : Ty := if x.isUnion then f x else x

section Spread

variable (hK : h.Combinable K) (hA : h.Associates K) (hD : Distinct D)

include hK

omit hK in
theorem pick_of_not_union {f : Ty → Ty} (hu : x.isUnion = false) : pick f x = x := by
  simp [pick, hu]

theorem pick_of_member {f : Ty → Ty} (hx : K x) : pick f x = x :=
  pick_of_not_union (isMember_iff.1 (hK.isMember hx)).1

theorem Piece.conjuncts (hx : Piece K x) : Ty.conjuncts x = some [x] := by
  cases hx with
  | member hx => exact hK.conjuncts hx
  | union _ => rfl

theorem Piece.over (hx : Piece K (.union us)) (hu : u ∈ us) : Over K u := by
  cases hx with
  | member hx => simpa [isUnion] using isMember_iff.1 (hK.isMember hx)
  | union hus => exact hus u hu

theorem over_pick {f : Ty → Ty} {flat : List Ty} (hflat : ∀ x ∈ flat, Piece K x) (hf : Chooses f flat)
    (ht : t ∈ flat.map (pick f)) : Over K t := by
  obtain ⟨x, hx, rfl⟩ := List.mem_map.1 ht
  cases hflat x hx with
  | member hmember => rw [pick_of_member hK hmember]; exact hK.over_of_member hmember
  | union hus => exact hus _ (hf _ hx)

include hA

theorem intersect_isUnion (hts : ∀ t ∈ ts, Over K t) : (h.intersect ts).isUnion = false := by
  obtain ⟨flat, hp, -, hflat⟩ := hK.exists_conjunctsAll hts
  obtain ⟨r, hr⟩ := exists_folds hK hA (s := flat) (by simpa using hflat)
  rcases intersect_of_folds hK hA hp hflat hr with ⟨-, hrun⟩ | ⟨ms, -, -, hms, hrun⟩
  · rw [hrun]
    rfl
  · rw [hrun]
    rcases Rules.interOf_cases h ms with ⟨-, hrun⟩ | ⟨m, rfl, hrun⟩ | ⟨-, hrun⟩
    · rw [hrun]
      rfl
    · rw [hrun]
      exact (isMember_iff.1 (hK.isMember (hms m (by simp)))).1
    · rw [hrun]
      rfl

/-- The intersection of chosen alternatives depends on what there is to choose from, not on its order. -/
theorem intersect_pick_congr {f : Ty → Ty} {flat flat' : List Ty} (hflat : ∀ x ∈ flat, Piece K x)
    (hsame : ∀ x, x ∈ flat ↔ x ∈ flat') (hf : Chooses f flat) :
    h.intersect (flat.map (pick f)) = h.intersect (flat'.map (pick f)) := by
  refine intersect_congr hK hA (fun t ht => over_pick hK hflat hf ht) (fun t ht => ?_) fun x => ?_
  · refine over_pick hK (fun x hx => hflat x ((hsame x).2 hx)) (fun us hus => ?_) ht
    exact hf us ((hsame _).2 hus)
  · simp [hsame]

/-- One choice after the other is one choice. -/
theorem intersect_pick_cons {f g : Ty → Ty} {flat fu others : List Ty} (hflat : ∀ x ∈ flat, Piece K x)
    (hmem : ∀ x, x ∈ flat ↔ x = .union us ∨ x ∈ others) (hg : Chooses g flat)
    (hfu : ∀ x, x ∈ fu ↔ Conjunct x (g (.union us))) (hother : ∀ x ∈ others, pick f x = pick g x) :
    h.intersect ((fu ++ others).map (pick f)) = h.intersect (flat.map (pick g)) := by
  have hchosen : g (.union us) ∈ us := hg us ((hmem _).2 (.inl rfl))
  have hover : Over K (g (.union us)) := (hflat _ ((hmem _).2 (.inl rfl))).over hK hchosen
  have hmove : (fu ++ others).map (pick f) = fu ++ others.map (pick g) := by
    rw [List.map_append, List.map_congr_left hother]
    congr 1
    exact (List.map_congr_left fun x hx => pick_of_member hK (hover x ((hfu x).1 hx))).trans (List.map_id _)
  have hpicked {t : Ty} : t ∈ flat.map (pick g) ↔ t = g (.union us) ∨ t ∈ others.map (pick g) := by
    have hus : pick g (.union us) = g (.union us) := by simp [pick, isUnion]
    simp only [List.mem_map, hmem, or_and_right, exists_or, exists_eq_left, hus, eq_comm (b := t)]
  rw [hmove]
  refine intersect_congr hK hA (fun t ht => ?_) (fun t ht => over_pick hK hflat hg ht) fun x => ?_
  · rcases List.mem_append.1 ht with ht | ht
    · exact hK.over_of_member (hover t ((hfu t).1 ht))
    · exact over_pick hK hflat hg (hpicked.2 (.inr ht))
  · have hopened : (∃ t ∈ fu, Conjunct x t) ↔ Conjunct x (g (.union us)) := by
      constructor
      · rintro ⟨t, ht, hx⟩
        obtain ⟨rfl, -⟩ := (Conjunct.iff_of_not_inter (hK.isInter (hover t ((hfu t).1 ht)))).1 hx
        exact (hfu x).1 ht
      · exact fun hx => ⟨x, (hfu x).2 hx, .self hx.isInter hx.isUnknown⟩
    simp only [List.mem_append, hpicked, or_and_right, exists_or, exists_eq_left, hopened]

/-- The choices of one alternative of a union, with those for the other unions. -/
theorem choices_first_iff {flat fu others : List Ty} (hflat : ∀ x ∈ flat, Piece K x)
    (hmem : ∀ x, x ∈ flat ↔ x = .union us ∨ x ∈ others) (hnew : Ty.union us ∉ others) (hu : u ∈ us)
    (hfu : ∀ x, x ∈ fu ↔ Conjunct x u) :
    (∃ f, Chooses f (fu ++ others) ∧ v = h.intersect ((fu ++ others).map (pick f))) ↔
      ∃ f, Chooses f flat ∧ f (.union us) = u ∧ v = h.intersect (flat.map (pick f)) := by
  classical
  have hover : Over K u := (hflat _ ((hmem _).2 (.inl rfl))).over hK hu
  constructor
  · rintro ⟨f, hf, rfl⟩
    have hkept (x) (hx : x ∈ others) : Function.update f (.union us) u x = f x := by
      rw [Function.update_of_ne]
      rintro rfl
      exact hnew hx
    have hchooses : Chooses (Function.update f (.union us) u) flat := by
      intro ws hws
      rcases (hmem _).1 hws with heq | hws
      · obtain rfl := Ty.union.inj heq
        simpa using hu
      · rw [hkept _ hws]
        exact hf ws (List.mem_append_right _ hws)
    refine ⟨_, hchooses, by simp, ?_⟩
    refine intersect_pick_cons hK hA hflat hmem hchooses (by simpa using hfu) fun x hx => ?_
    rw [pick, pick, hkept x hx]
  · rintro ⟨f, hf, rfl, rfl⟩
    refine ⟨f, fun ws hws => ?_, (intersect_pick_cons hK hA hflat hmem hf hfu fun x _ => rfl).symm⟩
    rcases List.mem_append.1 hws with hws | hws
    · simpa [isUnion] using isMember_iff.1 (hK.isMember (hover _ ((hfu _).1 hws)))
    · exact hf ws ((hmem _).2 (.inr hws))

/-- Where there is nothing to choose, the intersection is the one choice. -/
theorem exists_choices_of_member {flat : List Ty} (hp : conjunctsAll ts = some flat) (hflat : ∀ x ∈ flat, K x) :
    ∃ vs, (∀ v, v ∈ vs ↔ ∃ f, Chooses f flat ∧ v = h.intersect (flat.map (pick f))) ∧
      (h.intersect ts).SameHolds (h.union vs) := by
  have hparted := parted_of_conjunctsAll hp
  have hover (t) (ht : t ∈ ts) : Over K t := fun x hx => hflat x ((hparted.2 x).2 ⟨t, ht, hx⟩)
  have hpick (f : Ty → Ty) : flat.map (pick f) = flat :=
    (List.map_congr_left fun x hx => pick_of_member hK (hflat x hx)).trans (List.map_id _)
  have hsame : h.intersect flat = h.intersect ts := by
    refine intersect_congr hK hA (fun t ht => hK.over_of_member (hflat t ht)) hover fun x => ?_
    rw [← hparted.2 x]
    constructor
    · rintro ⟨t, ht, hx⟩
      rwa [((Conjunct.iff_of_not_inter (hK.isInter (hflat t ht))).1 hx).1]
    · intro hx
      have hx' := isMember_iff.1 (hK.isMember (hflat x hx))
      exact ⟨x, hx, .self (hK.isInter (hflat x hx)) hx'.2.2⟩
  refine ⟨[h.intersect ts], fun v => ?_, sameHolds_union_singleton (intersect_isUnion hK hA hover)⟩
  simp only [hpick, hsame, List.mem_singleton]
  refine ⟨fun hv => ⟨id, fun us hus => ?_, hv⟩, fun ⟨_, _, hv⟩ => hv⟩
  simpa [isUnion] using isMember_iff.1 (hK.isMember (hflat _ hus))

omit hK hA in
/-- An intersection with a union among its members is put together from those with each alternative. -/
theorem spread_sameHolds {flat others : List Ty} {vs : Ty → List Ty} (hp : conjunctsAll ts = some flat)
    (hfirst : firstUnion? (dedup flat) = some (us, others))
    (hvs : ∀ u ∈ us, (h.intersect (u :: others)).SameHolds (h.union (vs u))) :
    (h.intersect ts).SameHolds (h.union (us.flatMap vs)) := by
  rw [intersect_spread hp hfirst]
  refine union_sameHolds (fun t ht y hy => ?_) fun t ht y hy => ?_
  · obtain ⟨u, hu, rfl⟩ := List.mem_map.1 ht
    have hholds := (hvs u hu y).1 (.of_mem ((h.intersect_flat _).mem_members hy))
    refine holds_of_holds_union (fun s hs z hz => ?_) hholds
    exact holds_union_of_alternative (List.mem_flatMap.2 ⟨u, hu, hs⟩) hz
  · obtain ⟨u, hu, htu⟩ := List.mem_flatMap.1 ht
    have hholds := (hvs u hu y).2 (holds_union_of_alternative htu hy)
    exact holds_union (h.intersect_flat _) (List.mem_map_of_mem hu) hholds

include hD

omit hK hA in
/-- The first union is set apart from the other members, which have fewer unions. -/
theorem first_union_apart {flat others : List Ty} (hone : ∀ x ∈ flat, D x)
    (hfirst : firstUnion? (dedup flat) = some (us, others)) :
    (∀ x, x ∈ flat ↔ x = .union us ∨ x ∈ others) ∧ Ty.union us ∉ others ∧
      others.countP isUnion < flat.countP isUnion := by
  have hdedup (x : Ty) : x ∈ dedup flat ↔ x ∈ flat :=
    mem_dedup_iff fun x hx y hy => hD.eq_of_key_eq (hone x hx) (hone y hy)
  obtain ⟨before, after, heq, rfl⟩ := firstUnion?_some hfirst
  refine ⟨fun x => ?_, ?_, ?_⟩
  · rw [← hdedup, heq]
    simp [or_left_comm]
  · have hnodup := dedup_keys_nodup flat
    rw [heq] at hnodup
    exact (List.nodup_cons.1 (List.nodup_middle.1 (List.Nodup.of_map _ hnodup))).1
  · have hle := (dedup_sublist flat).countP_le (p := isUnion)
    rw [heq] at hle
    simp only [List.countP_append, List.countP_cons, isUnion, if_true] at hle ⊢
    omega

/-- **An intersection is the union of those that come of a choice of alternatives.** The induction is on the number
of unions; the first one is chosen from first. -/
theorem exists_choices {flat : List Ty} (hp : conjunctsAll ts = some flat) (hflat : ∀ x ∈ flat, Piece K x)
    (hone : ∀ x ∈ flat, D x) :
    ∃ vs, (∀ v, v ∈ vs ↔ ∃ f, Chooses f flat ∧ v = h.intersect (flat.map (pick f))) ∧
      (h.intersect ts).SameHolds (h.union vs) := by
  induction hn : flat.countP isUnion using Nat.strongRecOn generalizing ts flat with
  | ind n ih =>
    subst hn
    cases hfirst : firstUnion? (dedup flat) with
    | none =>
      have hdedup (x : Ty) : x ∈ dedup flat ↔ x ∈ flat :=
        mem_dedup_iff fun x hx y hy => hD.eq_of_key_eq (hone x hx) (hone y hy)
      refine exists_choices_of_member hK hA hp fun x hx => ?_
      have hu := firstUnion?_none hfirst ((hdedup x).2 hx)
      cases hflat x hx with
      | member hx => exact hx
      | union _ => simp [isUnion] at hu
    | some found =>
      obtain ⟨us, others⟩ := found
      obtain ⟨hmem, hnew, hfewer⟩ := first_union_apart hD hone hfirst
      have hothers (x) (hx : x ∈ others) : x ∈ flat := (hmem x).2 (.inr hx)
      have hunion : Ty.union us ∈ flat := (hmem _).2 (.inl rfl)
      -- with an alternative in place of the first union, there is one union less to choose from
      have hall (u) (hu : u ∈ us) : ∃ vs,
          (∀ v, v ∈ vs ↔ ∃ f, Chooses f flat ∧ f (.union us) = u ∧ v = h.intersect (flat.map (pick f))) ∧
            (h.intersect (u :: others)).SameHolds (h.union vs) := by
        have hover : ∀ t ∈ [u], Over K t := by simpa using (hflat _ hunion).over hK hu
        obtain ⟨fu, hpu, hfu, hmember⟩ := hK.exists_conjunctsAll hover
        replace hfu (x : Ty) : x ∈ fu ↔ Conjunct x u := by simpa using hfu x
        have hopened : conjunctsAll (u :: others) = some (fu ++ others) :=
          conjunctsAll_append hpu (conjunctsAll_self fun x hx => (hflat x (hothers x hx)).conjuncts hK)
        have hcount : (fu ++ others).countP isUnion < flat.countP isUnion := by
          have hzero : fu.countP isUnion = 0 := List.countP_eq_zero.2 fun x hx => by
            simpa using (isMember_iff.1 (hK.isMember (hmember x hx))).1
          rw [List.countP_append]
          omega
        have hpieces (x) (hx : x ∈ fu ++ others) : Piece K x ∧ D x := by
          rcases List.mem_append.1 hx with hx | hx
          · refine ⟨.member (hmember x hx), ?_⟩
            exact ((hfu x).1 hx).of_inter_closed (fun _ hms _ hm => hD.part hms hm) (hD.part (hone _ hunion) hu)
          · exact ⟨hflat x (hothers x hx), hone x (hothers x hx)⟩
        obtain ⟨vs, hvs, hsame⟩ := ih _ hcount hopened (fun x hx => (hpieces x hx).1)
          (fun x hx => (hpieces x hx).2) rfl
        exact ⟨vs, fun v => (hvs v).trans (choices_first_iff hK hA hflat hmem hnew hu hfu), hsame⟩
      choose! vs hvs hsame using hall
      refine ⟨us.flatMap vs, fun v => ?_, spread_sameHolds hp hfirst hsame⟩
      simp only [List.mem_flatMap]
      constructor
      · rintro ⟨u, hu, hv⟩
        obtain ⟨f, hf, -, hv⟩ := (hvs u hu v).1 hv
        exact ⟨f, hf, hv⟩
      · rintro ⟨f, hf, hv⟩
        exact ⟨f (.union us), hf us hunion, (hvs _ (hf us hunion) v).2 ⟨f, hf, rfl, hv⟩⟩

omit hK hA hD in
theorem intersect_simplified (h : Hierarchy) (ts : List Ty) : (h.intersect ts).Simplified := by
  have hmet : Rules.Met h.answers ts (h.intersect ts) := intersect_knot h ts ▸ Rules.intersectStep_met _ ts
  generalize h.intersect ts = met at hmet
  cases hmet with
  | never | excluded => exact fun _ heq => by simp at heq
  | spread => exact union_simplified h _
  | @settled flat members hp hu hs =>
    have hplain : ∀ m ∈ members, m.isUnion = false ∧ m.isInter = false := by
      refine hs.forall (fun a b t ha hb hc => Rules.combine_plain ha hb hc) (fun x hx => ?_) rfl
      obtain ⟨t, -, hconj⟩ := ((parted_of_conjunctsAll hp).2 x).1 (mem_of_mem_dedup hx)
      exact ⟨hu x hx, hconj.isInter⟩
    intro us heq
    rcases Rules.interOf_cases h members with ⟨-, hrun⟩ | ⟨m, rfl, hrun⟩ | ⟨-, hrun⟩
    · simp [hrun] at heq
    · rw [hrun] at heq
      simpa [heq, isUnion] using hplain m (by simp)
    · simp [hrun] at heq

/-- The type is put together from members by unions and intersections. -/
def Composed (K : Ty → Prop) (t : Ty) : Prop := ∀ x, Conjunct x t → x = .never ∨ Piece K x

omit hK hA in
/-- What comes of opening such types are members and unions of them. -/
theorem Composed.pieces {flat : List Ty} (hts : ∀ t ∈ ts, D t ∧ Composed K t) (hp : conjunctsAll ts = some flat)
    (hx : x ∈ flat) : Piece K x ∧ D x := by
  have hparted := parted_of_conjunctsAll hp
  obtain ⟨t, ht, hconj⟩ := (hparted.2 x).1 hx
  refine ⟨((hts t ht).2 x hconj).resolve_left ?_, ?_⟩
  · rintro rfl
    exact hparted.1 t ht hconj
  · exact hconj.of_inter_closed (fun _ hms _ hm => hD.part hms hm) (hts t ht).1

omit hK hA hD in
theorem conjunctsAll_eq_none_iff : conjunctsAll ts = none ↔ ∃ t ∈ ts, Conjunct .never t := by
  have hparted := conjunctsAll_parted ts
  cases hp : conjunctsAll ts with
  | none => simpa [hp, Parted] using hparted
  | some flat =>
    rw [hp] at hparted
    simpa using hparted.1

/-- **An intersection is told by the conjuncts of its arguments**, unions among them or not. -/
theorem intersect_key_congr (hts : ∀ t ∈ ts, D t ∧ Composed K t) (hts' : ∀ t ∈ ts', D t ∧ Composed K t)
    (hsame : ∀ x, (∃ t ∈ ts, Conjunct x t) ↔ ∃ t ∈ ts', Conjunct x t) :
    (h.intersect ts).key = (h.intersect ts').key := by
  have hnone : conjunctsAll ts = none ↔ conjunctsAll ts' = none := by
    rw [conjunctsAll_eq_none_iff, conjunctsAll_eq_none_iff, hsame]
  cases hp : conjunctsAll ts with
  | none =>
    have hnever {ts : List Ty} (hnone : conjunctsAll ts = none) : h.intersect ts = .never := by
      rw [intersect_knot, Rules.intersectStep, hnone]
      rfl
    rw [hnever hp, hnever (hnone.1 hp)]
  | some flat =>
    obtain ⟨flat', hp'⟩ : ∃ flat', conjunctsAll ts' = some flat' :=
      Option.ne_none_iff_exists'.1 fun hn => by simp [hnone.2 hn] at hp
    have hmem (x : Ty) : x ∈ flat ↔ x ∈ flat' := by
      rw [(parted_of_conjunctsAll hp).2, (parted_of_conjunctsAll hp').2, hsame]
    have hflat (x : Ty) (hx : x ∈ flat) := Composed.pieces hD hts hp hx
    have hflat' (x : Ty) (hx : x ∈ flat') := Composed.pieces hD hts' hp' hx
    obtain ⟨vs, hvs, hholds⟩ := exists_choices hK hA hD hp (fun x hx => (hflat x hx).1)
      fun x hx => (hflat x hx).2
    obtain ⟨vs', hvs', hholds'⟩ := exists_choices hK hA hD hp' (fun x hx => (hflat' x hx).1)
      fun x hx => (hflat' x hx).2
    have hchoices (v : Ty) : v ∈ vs ↔ v ∈ vs' := by
      rw [hvs, hvs']
      refine exists_congr fun f => ?_
      have hchooses : Chooses f flat ↔ Chooses f flat' := forall_congr' fun us => by rw [hmem]
      rw [← hchooses]
      refine and_congr_right fun hf => ?_
      rw [intersect_pick_congr hK hA (fun x hx => (hflat x hx).1) hmem hf]
    refine (intersect_simplified h ts).key_eq (intersect_simplified h ts') fun x => ?_
    rw [hholds, hholds']
    refine union_sameHolds (fun v hv y hy => ?_) (fun v hv y hy => ?_) x
    · exact holds_union_of_alternative ((hchoices v).1 hv) hy
    · exact holds_union_of_alternative ((hchoices v).2 hv) hy

end Spread

/-! ## Members that do not merge -/

section Order

omit h in
/-- Of two disjoint types that are neither unions nor `never`, none is below the other. -/
theorem not_subtype_of_disjoint {h : Hierarchy} {a b : Ty} (ha : a.isUnion = false ∧ a.isNever = false)
    (hb : b.isUnion = false ∧ b.isNever = false) (hd : h.disjoint a b = true) :
    h.subtype a b = false ∧ h.subtype b a = false := by
  rw [disjoint_knot, Rules.run_disjointStep, Ideal.run_answers_subtype, Ideal.run_answers_subtype] at hd
  cases hsame : a.same b <;> cases hab : h.subtype a b <;> cases hba : h.subtype b a <;>
    simp [ha, hb, hsame, hab, hba] at hd ⊢

/-- Members that do not merge are only dropped beside others below them, or exclude each other. The order in which
this is done makes no difference if they are ordered, and what is below a member is disjoint to all that the member
is disjoint to. -/
theorem Associates.of_order (hK : h.Combinable K)
    (hmerge : ∀ {a b}, K a → K b → (Rules.mergeObjects h.answers a b).run = .apart)
    (htrans : ∀ {a b c}, K a → K b → K c → h.subtype a b = true → h.subtype b c = true → h.subtype a c = true)
    (hanti : ∀ {a b}, K a → K b → h.subtype a b = true → h.subtype b a = true → a = b)
    (hsymm : ∀ {a b}, K a → K b → h.disjoint a b = h.disjoint b a)
    (hdown : ∀ {a b c}, K a → K b → K c → h.subtype a b = true → h.disjoint b c = true →
      h.disjoint a c = true) : h.Associates K := by
  have hcombine {a b : Ty} (ha : K a) (hb : K b) : h.combine a b =
      if h.subtype a b then .into a else if h.subtype b a then .into b
      else if h.disjoint a b then .empty else .apart := by
    rw [combine, Rules.run_combine, hmerge ha hb]
    rfl
  have hcomm {a b : Ty} (ha : K a) (hb : K b) : h.meet a b = h.meet b a := by
    rw [hK.meet_eq ha hb, hK.meet_eq hb ha, hcombine ha hb, hcombine hb ha, hsymm hb ha]
    cases hab : h.subtype a b <;> cases hba : h.subtype b a <;> cases h.disjoint a b <;> simp
    · by_cases heq : a = b
      · rw [heq]
      · have hkeys : ([a, b].map key).Nodup := by
          simpa using fun hk => heq (hK.eq_of_key_eq ha hb hk)
        have hrun : (Rules.interOf [a, b] : Ideal h Ty).run = (Rules.interOf [b, a] : Ideal h Ty).run :=
          run_interOf_perm (.swap ..) hkeys
        exact Ty.inter.inj hrun
    all_goals exact hanti ha hb hab hba
  -- so a meet is the lower of the two, or `never`, wherever they combine
  have hbelow {a b : Ty} (ha : K a) (hb : K b) (hs : h.subtype a b = true) : h.meet a b = a := by
    simp [hK.meet_eq ha hb, hcombine ha hb, hs]
  have habove {a b : Ty} (ha : K a) (hb : K b) (hs : h.subtype b a = true) : h.meet a b = b := by
    rw [hcomm ha hb, hbelow hb ha hs]
  have hexclude {a b : Ty} (ha : K a) (hb : K b) (hd : h.disjoint a b = true) : h.meet a b = .never := by
    have hplain {x : Ty} (hx : K x) := (isMember_iff.1 (hK.isMember hx)).imp_right And.left
    obtain ⟨hab, hba⟩ := not_subtype_of_disjoint (hplain ha) (hplain hb) hd
    simp [hK.meet_eq ha hb, hcombine ha hb, hab, hba, hd]
  have hways {a b : Ty} (ha : K a) (hb : K b) (hne : h.combine a b ≠ .apart) :
      h.subtype a b = true ∨ h.subtype b a = true ∨ h.disjoint a b = true := by
    rw [hcombine ha hb] at hne
    cases hab : h.subtype a b <;> cases hba : h.subtype b a <;> cases hd : h.disjoint a b <;>
      simp [hab, hba, hd] at hne ⊢
  -- in whichever way `a` and `b`, and `b` and `c` combine, both groupings come to the same
  refine ⟨hcomm, fun {a b c} ha hb hc hab hbc => ?_⟩
  rcases hways ha hb hab with hab | hba | hdab
  · rw [hbelow ha hb hab]
    rcases hways hb hc hbc with hbc | hcb | hdbc
    · rw [hbelow hb hc hbc, hbelow ha hb hab, hbelow ha hc (htrans ha hb hc hab hbc)]
    · rw [habove hb hc hcb]
    · rw [hexclude hb hc hdbc, (meet_never hK ha).2, hexclude ha hc (hdown ha hb hc hab hdbc)]
  · rw [habove ha hb hba]
    rcases hways hb hc hbc with hbc | hcb | hdbc
    · rw [hbelow hb hc hbc, habove ha hb hba]
    · rw [habove hb hc hcb, habove ha hc (htrans hc hb ha hcb hba)]
    · rw [hexclude hb hc hdbc, (meet_never hK ha).2]
  · rw [hexclude ha hb hdab, (meet_never hK hc).1]
    rcases hways hb hc hbc with hbc | hcb | hdbc
    · rw [hbelow hb hc hbc, hexclude ha hb hdab]
    · have hdca := hdown hc hb ha hcb (hsymm ha hb ▸ hdab)
      rw [habove hb hc hcb, hexclude ha hc (hsymm hc ha ▸ hdca)]
    · rw [hexclude hb hc hdbc, (meet_never hK ha).2]

end Order

/-! ### Atoms, literals and type parameters -/

/-- An atom of a sort, a literal, or a type parameter without a bound, with a word for its name. -/
structure Scalar (x : Ty) : Prop where
  named : Named x
  form : x ∈ [Ty.null, .undefined, .boolean, .number, .string] ∨ x.isLiteral = true ∨ ∃ v, x = .var v none

namespace Scalar

variable {a b c : Ty}

theorem data (ha : Scalar a) : Data a := by
  rcases ha.form with hatom | hlit | ⟨v, rfl⟩
  · exact .atom (by revert hatom; simp only [List.mem_cons, atoms]; tauto)
  · cases a with
    | literal l => exact .literal l
    | _ => simp [isLiteral] at hlit
  · exact .intro trivial (by simp [parts])

theorem plain (ha : Scalar a) : a.isMember = true ∧ a.isInter = false ∧ a.isObject = false := by
  rcases ha.form with hatom | hlit | ⟨v, rfl⟩
  · simp only [List.mem_cons, List.not_mem_nil, or_false] at hatom
    rcases hatom with rfl | rfl | rfl | rfl | rfl <;> exact ⟨rfl, rfl, rfl⟩
  · cases a with
    | literal l => exact ⟨rfl, rfl, rfl⟩
    | _ => simp [isLiteral] at hlit
  · exact ⟨rfl, rfl, rfl⟩

theorem eq_of_key_eq (ha : Scalar a) (hb : Scalar b) (hk : a.key = b.key) : a = b :=
  distinct_named.eq_of_key_eq ⟨ha.named, ha.data⟩ ⟨hb.named, hb.data⟩ hk

/-- The only other type that a literal is below is its atom. -/
theorem subtype_iff (ha : Scalar a) (hb : Scalar b) :
    h.subtype a b = true ↔ a = b ∨ ∃ l, a = .literal l ∧ b = l.base := by
  rw [subtype_iff_below ha.data hb.data]
  constructor
  · rintro (hk | hbelow)
    · exact .inl (ha.eq_of_key_eq hb hk)
    · have hplain := hb.plain
      have hplain' := ha.plain
      cases hbelow with
      | base l => exact .inr ⟨l, rfl, rfl⟩
      | bound => simpa [isLiteral] using ha.form
      | never => simp [isMember, isNever] at hplain'
      | unknown => simp [isMember, isUnknown] at hplain
      | alternatives => simp [isMember, isUnion] at hplain'
      | alternative => simp [isMember, isUnion] at hplain
      | shape => simp [isObject] at hplain
      | tuple => simpa [isLiteral] using ha.form
  · rintro (rfl | ⟨l, rfl, rfl⟩)
    · exact .inl rfl
    · exact .inr (.base l)

/-- Two of them share no value if they are of different sorts or are different literals. -/
theorem disjoint_iff (ha : Scalar a) (hb : Scalar b) : h.disjoint a b = true ↔
    h.subtype a b = false ∧ h.subtype b a = false ∧
      (a.differInSort b = true ∨ a.isLiteral = true ∧ b.isLiteral = true) := by
  constructor
  · intro hd
    obtain ⟨hua, hna, -⟩ := isMember_iff.1 ha.plain.1
    obtain ⟨hub, hnb, -⟩ := isMember_iff.1 hb.plain.1
    obtain ⟨hab, hba⟩ := not_subtype_of_disjoint ⟨hua, hna⟩ ⟨hub, hnb⟩ hd
    refine ⟨hab, hba, ?_⟩
    rw [disjoint_knot, Rules.run_disjointStep, Ideal.run_answers_subtype, Ideal.run_answers_subtype] at hd
    cases hsort : a.differInSort b with
    | true => exact .inl rfl
    | false =>
      have hparts : (Rules.partsDisjoint h.answers a b).run = true := by
        cases hsame : a.same b with
        | true => simp [hsame, hna] at hd
        | false => simpa [hua, hub, hna, hnb, hab, hba, hsort, hsame] using hd
      refine .inr ?_
      cases a with
      | literal l =>
        cases b with
        | literal l' => exact ⟨rfl, rfl⟩
        | _ => simp [Rules.partsDisjoint] at hparts
      | object _ _ => simpa [isObject] using ha.plain.2.2
      | tuple _ _ => simpa [isLiteral] using ha.form
      | _ => simp [Rules.partsDisjoint] at hparts
  · rintro ⟨hab, hba, hsort⟩
    exact h.disjoint_of_sort ha.plain.1 hb.plain.1 hab hba hsort

theorem combinable (h : Hierarchy) : h.Combinable Scalar where
  isMember ha := ha.plain.1
  isInter ha := ha.plain.2.1
  eq_of_key_eq := eq_of_key_eq
  into {a b t} ha hb hc := by
    rcases Rules.combine_into _ hc with rfl | rfl | hm
    · exact ha
    · exact hb
    · obtain ⟨tag, props, -, -, -, -, rfl, -⟩ := Rules.mergeObjects_into _ hm
      simpa [isObject] using ha.plain.2.2

/-- **Intersections of atoms, literals and type parameters may be taken in any order.** -/
theorem associates (h : Hierarchy) : h.Associates Scalar := by
  have hdisjoint {a b : Ty} (ha : Scalar a) (hb : Scalar b) := disjoint_iff (h := h) ha hb
  -- a scalar is below itself, and a literal below its atom
  refine .of_order (combinable h) (fun {a b} ha hb => ?_) (fun {a b c} ha hb hc hab hbc => ?_)
    (fun {a b} ha hb hab hba => ?_) (fun {a b} ha hb => ?_) fun {a b c} ha hb hc hab hd => ?_
  · have hobject := ha.plain.2.2
    cases a with
    | object _ _ => simp [isObject] at hobject
    | _ => rfl
  · rcases (subtype_iff ha hb).1 hab with rfl | ⟨l, rfl, rfl⟩
    · exact hbc
    · exact literal_subtype_of_base hbc
  · rcases (subtype_iff ha hb).1 hab with rfl | ⟨l, rfl, rfl⟩
    · rfl
    · simp [base_not_subtype] at hba
  · rw [Bool.eq_iff_iff, hdisjoint ha hb, hdisjoint hb ha, differInSort_comm]
    rw [and_left_comm, and_comm (a := b.isLiteral = true)]
  · rcases (subtype_iff ha hb).1 hab with rfl | ⟨l, rfl, rfl⟩
    · exact hd
    · -- the literal is of the sort of its atom
      obtain ⟨-, -, hsort | ⟨hlit, -⟩⟩ := (hdisjoint hb hc).1 hd
      · have hdiffer : (Ty.literal l).differInSort c = true := by
          cases l <;> exact hsort
        have hself (l : Literal) : (Ty.literal l).differInSort (.literal l) = false ∧
            (Ty.literal l).differInSort l.base = false := by
          cases l <;> exact ⟨rfl, rfl⟩
        refine (hdisjoint ha hc).2 ⟨?_, ?_, .inl hdiffer⟩
        · refine Bool.eq_false_iff.2 fun hs => ?_
          rcases (subtype_iff ha hc).1 hs with rfl | ⟨l', hl, rfl⟩
          · simp [(hself l).1] at hdiffer
          · obtain rfl := Ty.literal.inj hl
            simp [(hself l).2] at hdiffer
        · refine Bool.eq_false_iff.2 fun hs => ?_
          rcases (subtype_iff hc ha).1 hs with rfl | ⟨l', -, hl⟩
          · simp [(hself l).1] at hdiffer
          · cases l' <;> simp [Literal.base] at hl
      · cases l <;> simp [Literal.base, isLiteral] at hlit

end Scalar

/-! ### Record data that is ordered -/

/-- A member, or nothing. -/
def OrNever (K : Ty → Prop) (t : Ty) : Prop := K t ∨ t = .never

section Antisymmetric

variable {a b s : Ty} (hh : Declared h.classes) (hK : h.Combinable K) (htidy : ∀ {a}, K a → Tidy a)

include hh

theorem combines_tidy (ha : Tidy a) (hb : Tidy b) (hua : a.isUnion = false) (hub : b.isUnion = false) :
    h.Combines a b (h.combine a b) :=
  combines_combine hh (fun s t _ _ hs ht => intersect_greatest hh (by simpa using ⟨.inl hs, .inl ht⟩)) ha hb hua hub
    (Nat.le_max_left a.depth b.depth) (Nat.le_max_right ..)

/-- A type is below a meet of record data exactly if it is below both. -/
theorem subtype_meet_iff_both (hs : Extended s) (ht : Extended t) (hx : Extended x) :
    h.subtype x (h.meet s t) = true ↔ h.subtype x s = true ∧ h.subtype x t = true := by
  have hboth : ∀ r ∈ [s, t], Extended r := by simpa using ⟨hs, ht⟩
  rw [meet, (intersect_greatest hh hboth).subtype_iff hboth hx]
  simp

include hK htidy in
/-- Alternatives of record data never stay side by side. -/
theorem meet_orNever (hs : OrNever K s) (ht : OrNever K t) : OrNever K (h.meet s t) := by
  rcases hs with hs | rfl
  · rcases ht with ht | rfl
    · have hright := combines_tidy hh (htidy hs) (htidy ht) (isMember_iff.1 (hK.isMember hs)).1
        (isMember_iff.1 (hK.isMember ht)).1
      rw [hK.meet_eq hs ht]
      cases hc : h.combine s t with
      | apart => exact (hc ▸ hright : h.Combines s t .apart).elim
      | empty => exact .inr rfl
      | into t => exact .inl (hK.into hs ht hc)
    · exact .inr (meet_never hK hs).2
  · rcases ht with ht | rfl
    · exact .inr (meet_never hK ht).1
    · exact .inr (by rw [meet, intersect_knot]; rfl)

include hK htidy in
/-- **Record data may be reordered where no two different types are below each other.** There is only one greatest
type below some others then. -/
theorem Associates.of_antisymm
    (hanti : ∀ {a b}, K a → K b → h.subtype a b = true → h.subtype b a = true → a = b) : h.Associates K := by
  have hmeet {s t : Ty} (hs : OrNever K s) (ht : OrNever K t) : OrNever K (h.meet s t) :=
    meet_orNever hh hK htidy hs ht
  have hle {s t x : Ty} (hs : OrNever K s) (ht : OrNever K t) (hx : OrNever K x) :
      h.subtype x (h.meet s t) = true ↔ h.subtype x s = true ∧ h.subtype x t = true := by
    have hext {s : Ty} (hs : OrNever K s) : Extended s := hs.imp (fun hs => htidy hs) .inl
    exact subtype_meet_iff_both hh (hext hs) (hext ht) (hext hx)
  -- a type is told by the types below it
  have heq {s t : Ty} (hs : OrNever K s) (ht : OrNever K t)
      (hbelow : ∀ x, OrNever K x → (h.subtype x s = true ↔ h.subtype x t = true)) : s = t := by
    have hst := (hbelow s hs).1 (h.subtype_self s)
    have hts := (hbelow t ht).2 (h.subtype_self t)
    rcases hs with hs | rfl
    · rcases ht with ht | rfl
      · exact hanti hs ht hst hts
      · exact (h.subtype_never_iff).1 hst
    · exact ((h.subtype_never_iff).1 hts).symm
  refine ⟨fun {a b} ha hb => ?_, fun {a b c} ha hb hc _ _ => ?_⟩
  · have ha : OrNever K a := .inl ha
    have hb : OrNever K b := .inl hb
    refine heq (hmeet ha hb) (hmeet hb ha) fun x hx => ?_
    rw [hle ha hb hx, hle hb ha hx, and_comm]
  · have ha : OrNever K a := .inl ha
    have hb : OrNever K b := .inl hb
    have hc : OrNever K c := .inl hc
    refine heq (hmeet (hmeet ha hb) hc) (hmeet ha (hmeet hb hc)) fun x hx => ?_
    rw [hle (hmeet ha hb) hc hx, hle ha hb hx, hle ha (hmeet hb hc) hx, hle hb hc hx, and_assoc]

end Antisymmetric


/-! ### Shapes of atoms and literals -/

/-- There is no union in the type. -/
inductive Unforked : Ty → Prop where
  | intro {t : Ty} (hown : t.isUnion = false) (hparts : ∀ s ∈ t.parts, Unforked s) : Unforked t

namespace Unforked

theorem own (ht : Unforked t) : t.isUnion = false := by
  cases ht with
  | intro hown _ => exact hown

theorem part (ht : Unforked t) (hs : s ∈ t.parts) : Unforked s := by
  cases ht with
  | intro _ hparts => exact hparts s hs

end Unforked

/-- Record data without unions: atoms of sorts, literals, `null`, `undefined`, and shapes of these, one within
another. -/
structure Simple (t : Ty) : Prop where
  tidy : Tidy t
  unforked : Unforked t

namespace Simple

variable {propsA propsB : List (Property Ty)} {p q : Property Ty}

theorem part (ht : Simple t) (hs : s ∈ t.parts) : Simple s := ⟨ht.tidy.part hs, ht.unforked.part hs⟩

theorem extended (ht : Simple t) : Extended t := .inl ht.tidy

theorem point (ht : Simple t) : Point t := ⟨ht.extended, ht.unforked.own, ht.tidy.not_end.1⟩

theorem isMember (ht : Simple t) : t.isMember = true :=
  isMember_iff.2 ⟨ht.unforked.own, ht.tidy.not_end.1, ht.tidy.not_end.2.1⟩

theorem eq_of_key_eq (ha : Simple a) (hb : Simple b) : a.key = b.key → a = b :=
  eq_of_key_eq_of_extended ha.extended hb.extended

/-- The properties of a shape have different names. -/
theorem eq_of_name_eq {props : List (Property Ty)} (ht : Simple (.object "" props)) (hp : p ∈ props) (hq : q ∈ props)
    (hname : p.name = q.name) : p = q := by
  have hfind := (findProp?_eq_some_iff ht.tidy.own.2.2).2 ⟨hp, hname⟩
  exact Option.some.inj (hfind.symm.trans ((findProp?_eq_some_iff ht.tidy.own.2.2).2 ⟨hq, rfl⟩))

/-- A shape below another has each property that the other has, at a subtype. -/
theorem exists_prop (ha : Simple (.object "" propsA)) (hf : h.FitsShape (.object "" propsA) "" propsB)
    (hq : q ∈ propsB) : ∃ p ∈ propsA, p.name = q.name ∧ (p.readonly = true → q.readonly = true) ∧
      h.subtype p.type q.type = true := by
  obtain ⟨p, hp, hro, hs⟩ := hf.props q hq
  rw [propertyOf_object, findProp?_eq_some_iff ha.tidy.own.2.2] at hp
  exact ⟨p, hp.1, hp.2, hro, hs⟩

/-- **No two different types of record data without unions are below each other.** -/
theorem eq_of_subtype (ha : Simple a) (hb : Simple b) (hab : h.subtype a b = true) (hba : h.subtype b a = true) :
    a = b := by
  induction a using parts_induction generalizing b with
  | step a ih =>
    obtain ⟨-, hbelow⟩ := below_point ha.point hb.tidy hb.unforked.own hab
    rcases hbelow with rfl | ⟨l, rfl, rfl⟩ | ⟨propsB, rfl, -, hfa⟩
    · rfl
    · simp [base_not_subtype] at hba
    obtain ⟨-, habove⟩ := below_point hb.point ha.tidy ha.unforked.own hba
    rcases habove with heq | ⟨l, hl, -⟩ | ⟨propsA, rfl, -, hfb⟩
    · exact heq.symm
    · simp at hl
    have hmem (p) (hp : p ∈ propsA) : p ∈ propsB := by
      obtain ⟨q, hq, hname, hqp, hsub⟩ := exists_prop hb hfb hp
      -- what is below `q` is `p` again
      obtain ⟨p', hp', hname', hpq, hsub'⟩ := exists_prop ha hfa hq
      obtain rfl := ha.eq_of_name_eq hp' hp (hname'.trans hname)
      have hpart : p'.type ∈ (Ty.object "" propsA).parts := List.mem_map_of_mem hp
      have htype := ih _ hpart (ha.part hpart) (hb.part (List.mem_map_of_mem hq)) hsub' hsub
      have hrequired : p'.optional = q.optional :=
        (ha.tidy.own.1.2 p' hp).1.trans (hb.tidy.own.1.2 q hq).1.symm
      have hsame : p' = q := by
        cases p'
        cases q
        obtain rfl : _ = _ := hname'
        obtain rfl : _ = _ := htype
        obtain rfl : _ = _ := hrequired
        obtain rfl : _ = _ := Bool.eq_iff_iff.2 ⟨hpq, hqp⟩
        rfl
      exact hsame ▸ hq
    have hmem' (q) (hq : q ∈ propsB) : q ∈ propsA := by
      obtain ⟨p, hp, hname, -⟩ := exists_prop ha hfa hq
      exact hb.eq_of_name_eq (hmem p hp) hq hname ▸ hp
    have hirrefl : Std.Irrefl fun p q : Property Ty => p.name < q.name := ⟨fun p => Text.lt_irrefl p.name⟩
    have hasymm : Std.Antisymm fun p q : Property Ty => p.name < q.name :=
      ⟨fun _ _ hpq hqp => absurd (Text.lt_trans hpq hqp) (Text.lt_irrefl _)⟩
    rw [List.Pairwise.eq_of_mem_iff ha.tidy.own.2.2 hb.tidy.own.2.2 fun p => ⟨hmem p, hmem' p⟩]

/-- What two shapes merge into has no unions, since intersections of their properties have none. -/
theorem unforked_combine (hh : Declared h.classes) (ha : Simple a) (hb : Simple b) (hc : h.combine a b = .into t) :
    Unforked t := by
  induction a using parts_induction generalizing b t with
  | step a ih =>
    rcases Rules.combine_into _ hc with rfl | rfl | hm
    · exact ha.unforked
    · exact hb.unforked
    obtain ⟨tagA, propsA, tagB, propsB, -, -, rfl, rfl, -⟩ := Rules.mergeObjects_into _ hm
    obtain rfl : tagA = "" := ha.tidy.own.1.1
    obtain rfl : tagB = "" := hb.tidy.own.1.1
    rw [run_mergeObjects] at hm
    split at hm
    · simp at hm
    obtain rfl := Fusion.into.inj hm
    refine .intro rfl fun s hs => ?_
    obtain ⟨q, hq, rfl⟩ := List.mem_map.1 hs
    rcases (mem_merged_iff ha.tidy hb.tidy).1 hq with ⟨pa, hpa, rfl⟩ | ⟨hq, -⟩
    · have hpart : pa.type ∈ (Ty.object "" propsA).parts := List.mem_map_of_mem hpa
      rw [mergedProp]
      cases hfind : findProp? propsB pa.name with
      | none => exact ha.unforked.part hpart
      | some pb =>
        have hsa := ha.part hpart
        have hsb : Simple pb.type := hb.part (List.mem_map_of_mem (findProp?_some hfind).1)
        show Unforked (h.meet pa.type pb.type)
        have hright := combines_tidy hh hsa.tidy hsb.tidy hsa.unforked.own hsb.unforked.own
        rw [meet_eq_of_member ⟨hsa.isMember, hsa.tidy.not_end.2.2⟩ ⟨hsb.isMember, hsb.tidy.not_end.2.2⟩
          (hsa.eq_of_key_eq hsb)]
        cases hc : h.combine pa.type pb.type with
        | apart => exact (hc ▸ hright : h.Combines pa.type pb.type .apart).elim
        | empty => exact .intro rfl (by simp [parts])
        | into t => exact ih _ hpart hsa hsb hc
    · exact hb.unforked.part (List.mem_map_of_mem hq)

theorem combinable (hh : Declared h.classes) : h.Combinable Simple where
  isMember ha := ha.isMember
  isInter ha := ha.tidy.not_end.2.2
  eq_of_key_eq := eq_of_key_eq
  into {a b t} ha hb hc := by
    have hright := combines_tidy hh ha.tidy hb.tidy ha.unforked.own hb.unforked.own
    rw [hc] at hright
    exact ⟨hright.1, unforked_combine hh ha hb hc⟩

/-- **Intersections of atoms, literals and shapes of them may be taken in any order**, and grouped. -/
theorem associates (hh : Declared h.classes) : h.Associates Simple :=
  .of_antisymm hh (combinable hh) Simple.tidy eq_of_subtype

end Simple

/-- Of record data, the intersection of more types is below that of fewer. So those of the same types in another
order are below each other. -/
theorem intersect_antitone (hh : Declared h.classes) (hts : ∀ t ∈ ts, Extended t) (hsub : ∀ t ∈ ts', t ∈ ts) :
    h.subtype (h.intersect ts) (h.intersect ts') = true := by
  have hg := intersect_greatest hh hts
  have hg' := intersect_greatest hh fun t ht => hts t (hsub t ht)
  rw [hg'.subtype_iff (fun t ht => hts t (hsub t ht)) hg.extended]
  intro s hs
  exact (hg.subtype_iff hts hg.extended).1 (h.subtype_self _) s (hsub s hs)

end Hierarchy

/-! ## Universes -/

namespace Universe

open Hierarchy

variable {h : Hierarchy} {u : Universe} {K : Ty → Prop} {ts xs ys : List Ty}

/-- A universe answers two questions, one after the other, with one type. -/
def AnswersSame (u : Universe) (x y : InUniverse Ty) : Prop := (x.run u).1 = (y.run (x.run u).2).1

/-- Types with one key are one in a universe. -/
theorem Sound.answersSame (hu : u.Sound h) {x y : InUniverse Ty} {s t : Ty}
    (hx : u.Yields h x fun v r => v.Stands r s) (hy : u.Yields h y fun v r => v.Stands r t)
    (hk : s.key = t.key) : u.AnswersSame x y := by
  obtain ⟨hv, huv, hs⟩ := hx u hu (.refl h u)
  obtain ⟨-, hvw, ht⟩ := hy _ hv huv
  have hkept := (hs.grows hvw).lookup?
  rw [hk, ht.lookup?] at hkept
  exact (Option.some.inj hkept).symm

/-- **Intersections may be reordered and regrouped where those of two and of three members may**: in every
universe that comes of a new one by calls with words for names, by declarations of classes and by passes over
bodies, and for any members `K` with all that they combine into, the same types in another order have the same
intersection. The types are put together from members by unions and intersections. Where no unions are among
them, some may be intersected first. -/
theorem History.intersect_reordered (hu : u.History) (hK : u.classes.Combinable K)
    (hA : u.classes.Associates K) :
    (∀ ts ts' : List Ty, (∀ t ∈ ts, u.Keeps t ∧ Composed K t) → ts.Perm ts' →
      u.AnswersSame (TypeStore.intersect ts) (TypeStore.intersect ts')) ∧
    ∀ xs ys : List Ty, (∀ t ∈ xs ++ ys, u.Keeps t ∧ Over K t) →
      u.AnswersSame (do TypeStore.intersect ((← TypeStore.intersect xs) :: ys))
        (TypeStore.intersect (xs ++ ys)) := by
  have hsound := hu.sound.1
  have hyields {ts : List Ty} (hts : ∀ t ∈ ts, u.Keeps t) :=
    yields_intersect (h := u.classes) (hsound.stands_all hts)
  constructor
  · intro ts ts' hts hp
    have hts' (t) (ht : t ∈ ts') : u.Keeps t ∧ Composed K t := hts t (hp.mem_iff.2 ht)
    refine hsound.answersSame (hyields fun t ht => (hts t ht).1) (hyields fun t ht => (hts' t ht).1) ?_
    refine intersect_key_congr hK hA hsound.distinct hts hts' fun x => ?_
    exact exists_congr fun t => and_congr_left' hp.mem_iff
  · intro xs ys hall
    have hxs (t) (ht : t ∈ xs) := hall t (List.mem_append_left _ ht)
    have hys (t) (ht : t ∈ ys) := hall t (List.mem_append_right _ ht)
    have hgrouped : u.Yields u.classes (do TypeStore.intersect ((← TypeStore.intersect xs) :: ys))
        fun v met => v.Stands met (u.classes.intersect (u.classes.intersect xs :: ys)) := by
      refine (hyields fun t ht => (hxs t ht).1).bind fun v met hv huv hmet => yields_intersect (.cons hmet ?_)
      exact (hsound.stands_all fun t ht => (hys t ht).1).imp fun _ _ hs => Stands.grows hs huv
    refine hsound.answersSame hgrouped (hyields fun t ht => (hall t ht).1) ?_
    rw [intersect_intersect hK hA (fun t ht => (hxs t ht).2) fun t ht => (hys t ht).2]

/-- The entries after a type parameter was made. -/
def parametric : List Ty := Ty.atoms ++ [.var "T" none]

theorem parametric_history : (holding parametric).History := by
  have hword : Text.IsWord "T" := by decide
  have hcall : ((Call.typeVar "T" none).serve.run (.new 0)).2 = holding parametric := by
    show ((holding Ty.atoms).intern (.var "T" none)).2 = _
    rw [intern_of_not_mem (by decide) (by decide), parametric]
  rw [← hcall]
  exact .call (.new 0) _ (by simp [Call.types]) (by simpa [Call.names] using hword)

/-- A type parameter and an atom may change places. -/
theorem parametric_reordered : (holding parametric).History ∧
    (holding parametric).AnswersSame (TypeStore.intersect [.var "T" none, .string])
      (TypeStore.intersect [.string, .var "T" none]) := by
  have hu := parametric_history
  refine ⟨hu, (hu.intersect_reordered (Scalar.combinable _) (Scalar.associates _)).1 _ _ (fun t ht => ?_)
    (.swap ..)⟩
  have hmem : t ∈ parametric := by
    rcases (by simpa using ht : t = .var "T" none ∨ t = .string) with rfl | rfl <;> simp [parametric, Ty.atoms]
  have hkept : (holding parametric).Keeps t := (lookup?_holding (by decide)).2 ⟨hmem, rfl⟩
  have hscalar : Scalar t := by
    refine ⟨hu.sound.1.named hkept, ?_⟩
    rcases (by simpa using ht : t = .var "T" none ∨ t = .string) with rfl | rfl <;> simp
  refine ⟨hkept, fun x hx => .inr (.member ?_)⟩
  obtain ⟨rfl, -⟩ := (Conjunct.iff_of_not_inter hscalar.plain.2.1).1 hx
  exact hscalar

/-! ## Shapes below each other -/

/-- The shape that asks for nothing. -/
def blank : Ty := .object "" []

/-- A shape that asks for nothing, but says what a property is if it is there. -/
def lenient : Ty := .object "" [{ name := "x", type := .string, optional := true }]

/-- The entries after the two shapes were made. -/
def lenientEntries : List Ty := Ty.atoms ++ [blank] ++ [lenient]

theorem lenient_history : (holding lenientEntries).History := by
  have hword : Text.IsWord "x" := by decide
  have hnew : (holding Ty.atoms).History := .new 0
  have hblank := history_object [] hnew (by decide) (by decide) rfl (by simp) (by simp)
  exact history_object _ hblank (by decide) (by decide) rfl (by simp [Ty.atoms]) (by simpa using hword)

/-- Each of the two shapes is below the other, and the one that comes first is their intersection. -/
theorem lenient_not_reordered : (holding lenientEntries).History ∧
    (∀ t ∈ [blank, lenient], (holding lenientEntries).Keeps t) ∧ [blank, lenient].Perm [lenient, blank] ∧
      ¬ (holding lenientEntries).AnswersSame (TypeStore.intersect [blank, lenient])
        (TypeStore.intersect [lenient, blank]) := by
  refine ⟨lenient_history, ?_, .swap .., ?_⟩
  · intro t ht
    refine (lookup?_holding (by decide)).2 ⟨?_, rfl⟩
    simp only [List.mem_cons, List.not_mem_nil, or_false] at ht
    rcases ht with rfl | rfl <;> simp [lenientEntries]
  · have hfirst : (TypeStore.intersect [blank, lenient] : InUniverse Ty).run (holding lenientEntries) =
        (blank, holding lenientEntries) := by
      with_unfolding_all rfl
    have hsecond : (TypeStore.intersect [lenient, blank] : InUniverse Ty).run (holding lenientEntries) =
        (lenient, holding lenientEntries) := by
      with_unfolding_all rfl
    rw [AnswersSame, hfirst, hsecond]
    simp [blank, lenient]

end Universe

end FlowTyping
