import FlowTyping.Proofs.Relation.Knot

/-!
# Canonical types

The types of a program are not arbitrary trees: each is made by the constructors of a store, and these
simplify. This module says which trees can come about.

* **`Ty.Built`** — made by the constructors, whatever classes were declared at the time.
* **`Ty.Canonical`** — the members of unions are no unions, neither `never` nor `unknown`, and have
  different keys; those of intersections are no intersections either, and no two of them combine.
* **`Ty.Built.canonical`** — what is built is canonical. The work is in intersections, which build shapes
  with intersections in them: an induction over depth, and over spread within one depth.
-/

namespace FlowTyping

namespace Ty

/-- Two members of an intersection that stayed side by side when it was built. -/
def Apart (a b : Ty) : Prop :=
  ∃ h : Hierarchy, (Rules.combine h.answers a b).run = .apart ∨
    (Rules.combine h.answers b a).run = .apart

theorem Apart.symm {a b : Ty} (hab : Apart a b) : Apart b a := by
  obtain ⟨h, hc⟩ := hab
  exact ⟨h, hc.symm⟩

/-- The members of a union or an intersection need no simplification. -/
def Neat : Ty → Prop
  | .union ms => 2 ≤ ms.length ∧ (ms.map key).Nodup ∧ ∀ m ∈ ms, m.isMember = true
  | .inter ms =>
    2 ≤ ms.length ∧ (∀ m ∈ ms, m.isMember = true ∧ m.isInter = false) ∧ ms.Pairwise Apart
  | _ => True

/-- All unions and intersections in the type are neat. -/
inductive Canonical : Ty → Prop where
  | intro {t : Ty} (hneat : t.Neat) (hparts : ∀ s ∈ t.parts, Canonical s) : Canonical t

namespace Canonical

variable {s t : Ty}

theorem neat (ht : Canonical t) : t.Neat := by
  cases ht with
  | intro hneat _ => exact hneat

theorem part (ht : Canonical t) (hs : s ∈ t.parts) : Canonical s := by
  cases ht with
  | intro _ hparts => exact hparts s hs

theorem member (ht : Canonical t) (hs : s ∈ t.members) : Canonical s := of_mem_members ht (fun _ => ht.part) hs

/-- What has no parts is canonical. -/
theorem of_parts_nil (hp : t.parts = []) (hu : t.isUnion = false) (hi : t.isInter = false) :
    Canonical t := by
  refine .intro ?_ (by simp [hp])
  cases t with
  | union ms => simp [isUnion] at hu
  | inter ms => simp [isInter] at hi
  | _ => trivial

end Canonical

/-- A type made by the constructors of a store. -/
inductive Built : Ty → Prop where
  | atom {t : Ty} (ht : t ∈ atoms) : Built t
  | literal (l : Literal) : Built (.literal l)
  | object (tag : String) (props : List (Property Ty)) (hp : ∀ p ∈ props, Built p.type) :
    Built (.object tag (TypeStore.sortProps props))
  | tuple (elems : List (Elem Ty)) (rest : Option Ty) (he : ∀ e ∈ elems, Built e.type)
    (hr : ∀ t ∈ rest, Built t) : Built (.tuple elems rest)
  | function (params : List (Param Ty)) (ret : Ty) (hp : ∀ p ∈ params, Built p.type)
    (hr : Built ret) : Built (.function params ret)
  | var (name : String) (bound : Option Ty) (hb : ∀ t ∈ bound, Built t) : Built (.var name bound)
  | union (h : Hierarchy) (ts : List Ty) (hts : ∀ t ∈ ts, Built t) : Built (h.union ts)
  | inter (h : Hierarchy) (ts : List Ty) (hts : ∀ t ∈ ts, Built t) : Built (h.intersect ts)

end Ty

namespace Hierarchy

open Ty

variable {h : Hierarchy}

theorem union_canonical {ts : List Ty} (hts : ∀ t ∈ ts, Canonical t) : Canonical (h.union ts) := by
  refine union_forall ?_ ?_ ?_ ?_ hts
  · exact .of_parts_nil rfl rfl rfl
  · exact .of_parts_nil rfl rfl rfl
  · exact fun ms hms m hm => hms.part hm
  · exact fun ms hlen hkeys hms =>
      .intro ⟨hlen, hkeys, fun m hm => (hms m hm).2⟩ fun m hm => (hms m hm).1

/-- Shapes that merge, with canonical intersections of the properties that both have. -/
theorem combine_canonical {a b t : Ty} {d : Nat}
    (hmeet : ∀ s t : Ty, s.depth < d → t.depth < d → Canonical s → Canonical t →
      Canonical (h.intersect [s, t]))
    (ha : Canonical a ∧ a.depth ≤ d) (hb : Canonical b ∧ b.depth ≤ d)
    (hc : (Rules.combine h.answers a b).run = .into t) : Canonical t := by
  rcases Rules.combine_into _ hc with rfl | rfl | hm
  · exact ha.1
  · exact hb.1
  · obtain ⟨tagA, propsA, tagB, propsB, tag, ps, rfl, rfl, -, hps, rfl⟩ :=
      Rules.mergeObjects_into _ hm
    have hpropA (p) (hp : p ∈ propsA) : Canonical p.type ∧ p.type.depth < d := by
      have hmem : p.type ∈ (Ty.object tagA propsA).parts := List.mem_map_of_mem hp
      have : 1 + p.type.depth ≤ _ := depth_part_le hmem
      exact ⟨ha.1.part hmem, by omega⟩
    have hpropB (p) (hp : p ∈ propsB) : Canonical p.type ∧ p.type.depth < d := by
      have hmem : p.type ∈ (Ty.object tagB propsB).parts := List.mem_map_of_mem hp
      have : 1 + p.type.depth ≤ _ := depth_part_le hmem
      exact ⟨hb.1.part hmem, by omega⟩
    refine .intro trivial fun s hs => ?_
    obtain ⟨p, hp, rfl⟩ := List.mem_map.1 hs
    rcases List.mem_append.1 (TypeStore.mem_of_mem_sortProps hp) with hp | hp
    · rcases Rules.mergedProps_some _ hps hp with hp | ⟨pa, hpa, pb, hpb, heq⟩
      · exact (hpropA p hp).1
      · rw [heq, Ideal.run_answers_intersect]
        have hA := hpropA pa hpa
        have hB := hpropB pb hpb
        exact hmeet _ _ hA.2 hB.2 hA.1 hB.1
    · exact (hpropB p (List.mem_filter.1 hp).1).1

/-- What holds of two shapes holds of the shape they merge into. -/
theorem combine_isMember {a b t : Ty} (ha : a.isMember = true ∧ a.isInter = false)
    (hb : b.isMember = true ∧ b.isInter = false)
    (hc : (Rules.combine h.answers a b).run = .into t) : t.isMember = true ∧ t.isInter = false := by
  rcases Rules.combine_into _ hc with rfl | rfl | hm
  · exact ha
  · exact hb
  · obtain ⟨tagA, propsA, tagB, propsB, tag, ps, -, -, -, -, rfl⟩ := Rules.mergeObjects_into _ hm
    exact ⟨rfl, rfl⟩

theorem combine_depth_le {a b t : Ty} {d : Nat} (ha : a.depth ≤ d) (hb : b.depth ≤ d)
    (hc : (Rules.combine h.answers a b).run = .into t) : t.depth ≤ d :=
  ((h.answers_tame (a.size + b.size)).combine ⟨.of_size_le a (by omega), ha⟩
    ⟨.of_size_le b (by omega), hb⟩ hc).depth_le

/-- The members that an intersection starts from are canonical, and no deeper than its arguments. -/
theorem canonical_of_conjuncts {ts flat : List Ty} (hts : ∀ t ∈ ts, Canonical t)
    (hp : conjunctsAll ts = some flat) {x : Ty} (hx : x ∈ dedup flat) :
    Canonical x ∧ x.depth ≤ greatest depth ts ∧ x.isInter = false ∧ x.isNever = false ∧
      x.isUnknown = false := by
  have hparted := parted_of_conjunctsAll hp
  obtain ⟨t, ht, hconj⟩ := (hparted.2 x).1 (mem_of_mem_dedup hx)
  refine ⟨?_, ?_, hconj.isInter, ?_, hconj.isUnknown⟩
  · exact hconj.of_inter_closed (fun ms hms m hm => hms.part hm) (hts t ht)
  · refine hconj.of_inter_closed (P := fun x => x.depth ≤ greatest depth ts) ?_ (le_greatest ht)
    intro ms hms m hm
    have : 0 + m.depth ≤ _ := depth_part_le (t := .inter ms) hm
    omega
  · cases x with
    | never => exact absurd hconj (hparted.1 t ht)
    | _ => rfl

/-- An intersection is canonical if those with less depth, or with less spread, are. -/
theorem met_canonical {ts : List Ty} {met : Ty} (hts : ∀ t ∈ ts, Canonical t)
    (hmeet : ∀ s t : Ty, s.depth < greatest depth ts → t.depth < greatest depth ts →
      Canonical s → Canonical t → Canonical (h.intersect [s, t]))
    (hspread : ∀ us : List Ty, greatest depth us ≤ greatest depth ts → spreadAll us < spreadAll ts →
      (∀ u ∈ us, Canonical u) → Canonical (h.intersect us))
    (hmet : Rules.Met h.answers ts met) : Canonical met := by
  cases hmet with
  | never _ _ => exact .of_parts_nil rfl rfl rfl
  | excluded _ _ _ => exact .of_parts_nil rfl rfl rfl
  | @spread flat us before after hp hflat =>
    have hmem (x) (hx : x ∈ dedup flat) := canonical_of_conjuncts hts hp hx
    have hle : spreadAll (dedup flat) ≤ spreadAll ts :=
      Nat.le_trans (Rules.spreadAll_le_of_sublist (dedup_sublist flat))
        (Rules.spreadAll_conjunctsAll hp)
    rw [hflat] at hmem hle
    have hunion := hmem (.union us) (by simp)
    refine union_canonical fun t ht => ?_
    obtain ⟨u, hu, rfl⟩ := List.mem_map.1 ht
    -- an alternative is no deeper than its union, and has less to spread
    have hlist : ∀ t ∈ u :: (before ++ after), Canonical t ∧ t.depth ≤ greatest depth ts := by
      intro t ht
      rcases List.mem_cons.1 ht with rfl | ht
      · have : 0 + t.depth ≤ _ := depth_part_le (t := .union us) hu
        exact ⟨hunion.1.part hu, by omega⟩
      · rcases List.mem_append.1 ht with ht | ht
        · exact ⟨(hmem t (by simp [ht])).1, (hmem t (by simp [ht])).2.1⟩
        · exact ⟨(hmem t (by simp [ht])).1, (hmem t (by simp [ht])).2.1⟩
    rw [Ideal.run_answers_intersect]
    refine hspread _ (greatest_le fun t ht => (hlist t ht).2) ?_ fun t ht => (hlist t ht).1
    have := le_greatest (f := spread) hu
    simp only [spreadAll_append, spreadAll_cons, spread_union] at hle ⊢
    omega
  | @settled flat members hp hu hs =>
    -- what is left was combined from canonical types of no more depth
    have hmembers : ∀ m ∈ members, (Canonical m ∧ m.depth ≤ greatest depth ts) ∧
        m.isMember = true ∧ m.isInter = false := by
      refine hs.forall ?_ ?_ rfl
      · rintro a b t ⟨ha, ha'⟩ ⟨hb, hb'⟩ hc
        exact ⟨⟨combine_canonical hmeet ha hb hc, combine_depth_le ha.2 hb.2 hc⟩,
          combine_isMember ha' hb' hc⟩
      · intro x hx
        obtain ⟨hcan, hdepth, hi, hn, hk⟩ := canonical_of_conjuncts hts hp hx
        exact ⟨⟨hcan, hdepth⟩, isMember_iff.2 ⟨hu x hx, hn, hk⟩, hi⟩
    rcases Rules.interOf_cases h members with ⟨rfl, hrun⟩ | ⟨m, rfl, hrun⟩ | ⟨hlen, hrun⟩
    · rw [hrun]
      exact .of_parts_nil rfl rfl rfl
    · rw [hrun]
      exact (hmembers m (by simp)).1.1
    · rw [hrun]
      have hperm := sortByKey_perm members
      have hapart : members.Pairwise Apart := (hs.apart rfl).imp fun hc => ⟨h, .inl hc⟩
      refine .intro ⟨by rwa [hperm.length_eq], ?_, ?_⟩ ?_
      · exact fun m hm => (hmembers m (mem_sortByKey.1 hm)).2
      · exact hperm.symm.pairwise hapart Apart.symm
      · exact fun m hm => (hmembers m (mem_sortByKey.1 hm)).1.1

theorem intersect_canonical {ts : List Ty} (hts : ∀ t ∈ ts, Canonical t) :
    Canonical (h.intersect ts) := by
  generalize hd : greatest depth ts = d
  generalize hn : spreadAll ts = n
  induction d using Nat.strongRecOn generalizing ts n with
  | ind d ihd =>
    induction n using Nat.strongRecOn generalizing ts with
    | ind n ihn =>
      subst hd hn
      rw [intersect_knot]
      refine met_canonical hts ?_ ?_ (Rules.intersectStep_met _ ts)
      · intro s t hs ht hcs hct
        have hlt : greatest depth [s, t] < greatest depth ts := by
          simp only [greatest_cons, greatest_nil]
          omega
        exact ihd _ hlt (by simp [hcs, hct]) rfl _ rfl
      · intro us hdepth hspread hus
        rcases Nat.lt_or_eq_of_le hdepth with hlt | heq
        · exact ihd _ hlt hus rfl _ rfl
        · exact ihn _ hspread hus heq rfl

end Hierarchy

namespace Ty

/-- What is built is canonical. -/
theorem Built.canonical {t : Ty} (ht : Built t) : Canonical t := by
  induction ht with
  | @atom t ht =>
    simp only [atoms, List.mem_cons, List.not_mem_nil, or_false] at ht
    rcases ht with rfl | rfl | rfl | rfl | rfl | rfl | rfl <;> exact .of_parts_nil rfl rfl rfl
  | literal l => exact .of_parts_nil rfl rfl rfl
  | object tag props _ ih =>
    refine .intro trivial fun s hs => ?_
    obtain ⟨p, hp, rfl⟩ := List.mem_map.1 hs
    exact ih p (TypeStore.mem_of_mem_sortProps hp)
  | tuple elems rest _ _ ihe ihr =>
    refine .intro trivial fun s hs => ?_
    rcases List.mem_append.1 hs with hs | hs
    · obtain ⟨e, he, rfl⟩ := List.mem_map.1 hs
      exact ihe e he
    · exact ihr s (by simpa using hs)
  | function params ret _ _ ihp ihr =>
    refine .intro trivial fun s hs => ?_
    rcases List.mem_append.1 hs with hs | hs
    · obtain ⟨p, hp, rfl⟩ := List.mem_map.1 hs
      exact ihp p hp
    · exact List.mem_singleton.1 hs ▸ ihr
  | var name bound _ ih => exact .intro trivial fun s hs => ih s (by simpa [parts] using hs)
  | union h ts _ ih => exact Hierarchy.union_canonical ih
  | inter h ts _ ih => exact Hierarchy.intersect_canonical ih

end Ty
end FlowTyping
