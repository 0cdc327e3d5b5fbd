import FlowTyping.Proofs.Relation.Join
import FlowTyping.Proofs.Relation.Meet
import Mathlib.Data.Multiset.AddSub
import Mathlib.Data.Multiset.Basic

/-!
# When the order of an intersection makes no difference

An intersection combines its members pair by pair, in the order in which they are found: one member takes the
place of another that it is below, two shapes merge, and members that exclude each other leave nothing. Nothing
in the rules makes the result independent of that order. It is so for a family of members if two of them combine
alike in both orders, and if of three it does not matter which two are combined first. This is Newman's argument:
combining takes a member away, and two ways to begin come together again.

* **`Hierarchy.Folds`** — what members come to when pairs are combined in any order, and `folds_of_settled`,
  that the loop takes one of the orders.
* **`Hierarchy.Folds.unique`** — all orders come to the same, from pairs (`Associates.comm`) and triples
  (`Associates.assoc`). Two first steps are of one pair, overlap (`Step.unique_of_shared`) or are apart
  (`Step.unique_of_beside`).
* **`Hierarchy.intersect_congr`**, **`Hierarchy.intersect_intersect`** — order, repetition and grouping make no
  difference to intersections without unions, and **`Hierarchy.associates_iff`**, that pairs and triples decide.
-/

namespace FlowTyping

open Ty

/-- Two pairs taken out of the same things are the same pair, have one thing in common, or none. -/
theorem pairs_of_cons_eq_cons {α : Type} {a b a' b' : α} {s s' : Multiset α}
    (heq : a ::ₘ b ::ₘ s = a' ::ₘ b' ::ₘ s') :
    (({a, b} : Multiset α) = {a', b'} ∧ s = s') ∨
    (∃ x y z q, ({a, b} : Multiset α) = {x, y} ∧ ({a', b'} : Multiset α) = {x, z} ∧ s = z ::ₘ q ∧ s' = y ::ₘ q) ∨
    ∃ q, s = a' ::ₘ b' ::ₘ q ∧ s' = a ::ₘ b ::ₘ q := by
  -- what is left where the two pairs share `x`
  have hshared {x y z : α} {s s' : Multiset α} (heq : x ::ₘ y ::ₘ s = x ::ₘ z ::ₘ s') :
      y = z ∧ s = s' ∨ ∃ q, s = z ::ₘ q ∧ s' = y ::ₘ q := by
    rcases Multiset.cons_eq_cons.1 ((Multiset.cons_inj_right x).1 heq) with h | ⟨-, q, h⟩
    · exact .inl h
    · exact .inr ⟨q, h⟩
  by_cases haa : a' = a
  · subst haa
    rcases hshared heq with ⟨rfl, rfl⟩ | ⟨q, hq⟩
    · exact .inl ⟨rfl, rfl⟩
    · exact .inr (.inl ⟨a', b, b', q, rfl, rfl, hq⟩)
  by_cases hab : a' = b
  · subst hab
    rcases hshared ((Multiset.cons_swap ..).trans heq) with ⟨rfl, rfl⟩ | ⟨q, hq⟩
    · exact .inl ⟨Multiset.pair_comm .., rfl⟩
    · exact .inr (.inl ⟨a', a, b', q, Multiset.pair_comm .., rfl, hq⟩)
  have hmem : a' ∈ s := by
    have hmem : a' ∈ a ::ₘ b ::ₘ s := heq ▸ Multiset.mem_cons_self ..
    simpa [haa, hab] using hmem
  obtain ⟨p, rfl⟩ := Multiset.exists_cons_of_mem hmem
  have hrest : b' ::ₘ s' = a ::ₘ b ::ₘ p := by
    rw [← Multiset.cons_inj_right a', ← heq, Multiset.cons_swap b, Multiset.cons_swap a]
  rcases Multiset.cons_eq_cons.1 hrest with ⟨rfl, rfl⟩ | ⟨-, r, rfl, hr⟩
  · exact .inr (.inl ⟨b', b, a', p, rfl, Multiset.pair_comm .., rfl, rfl⟩)
  · rcases Multiset.cons_eq_cons.1 hr with ⟨rfl, rfl⟩ | ⟨-, q, rfl, rfl⟩
    · exact .inr (.inl ⟨b, a, a', p, Multiset.pair_comm .., Multiset.pair_comm .., rfl, rfl⟩)
    · exact .inr (.inr ⟨q, rfl, rfl⟩)

/-- Where one tree has a key, no tree is lost when repetitions are dropped. -/
theorem Ty.mem_dedup_iff {flat : List Ty} {x : Ty} (hone : ∀ x ∈ flat, ∀ y ∈ flat, x.key = y.key → x = y) :
    x ∈ dedup flat ↔ x ∈ flat := by
  refine ⟨mem_of_mem_dedup, fun hx => ?_⟩
  obtain ⟨y, hy, hk⟩ := exists_mem_dedup hx
  rwa [← hone y (mem_of_mem_dedup hy) x hx hk]

namespace Hierarchy

variable {h : Hierarchy} {K : Ty → Prop} {a b c t x y z : Ty} {s s' q : Multiset Ty}
  {r r' : Option (Multiset Ty)}

/-- What becomes of two members. -/
def combine (h : Hierarchy) (a b : Ty) : Fusion := (Rules.combine h.answers a b).run

/-- Members of intersections, with all that they combine into. Types with one key are one. -/
structure Combinable (h : Hierarchy) (K : Ty → Prop) : Prop where
  isMember : ∀ {a}, K a → a.isMember = true
  isInter : ∀ {a}, K a → a.isInter = false
  eq_of_key_eq : ∀ {a b}, K a → K b → a.key = b.key → a = b
  into : ∀ {a b t}, K a → K b → h.combine a b = .into t → K t

/-- The order of two members makes no difference, nor does it which neighbour a member is combined with first,
where it combines with both. -/
structure Associates (h : Hierarchy) (K : Ty → Prop) : Prop where
  comm : ∀ {a b}, K a → K b → h.meet a b = h.meet b a
  assoc : ∀ {a b c}, K a → K b → K c → h.combine a b ≠ .apart → h.combine b c ≠ .apart →
    h.meet (h.meet a b) c = h.meet a (h.meet b c)

/-! ## Two members -/

theorem combine_self (a : Ty) : h.combine a a = .into a := by
  simp [combine, Rules.run_combine]

/-- What is neither a union nor an intersection, nor an end of the order, is one conjunct. -/
theorem conjuncts_of_member (hm : a.isMember = true) (hi : a.isInter = false) : conjuncts a = some [a] := by
  have hm := isMember_iff.1 hm
  cases a <;> first | rfl | simp [isNever, isUnknown, Ty.isInter] at hm hi

/-- The meet of two members is what they combine into, or has both of them. -/
theorem meet_eq_of_member (ha : a.isMember = true ∧ a.isInter = false) (hb : b.isMember = true ∧ b.isInter = false)
    (heq : a.key = b.key → a = b) : h.meet a b = match h.combine a b with
    | .apart => .inter (sortByKey [a, b])
    | .empty => .never
    | .into t => t := by
  have hua := (isMember_iff.1 ha.1).1
  have hub := (isMember_iff.1 hb.1).1
  have hopen := conjunctsAll_pair (conjuncts_of_member ha.1 ha.2) (conjuncts_of_member hb.1 hb.2)
  by_cases hk : a.key = b.key
  · obtain rfl := heq hk
    rw [combine_self, meet]
    exact intersect_single hopen (by simp [dedup_pair]) hua
  · have hnone : firstUnion? [a, b] = none := by
      cases hf : firstUnion? [a, b] with
      | none => rfl
      | some found =>
        obtain ⟨before, after, heq, -⟩ := firstUnion?_some hf
        have hmem : Ty.union found.1 ∈ [a, b] := by simp [heq]
        rcases (by simpa using hmem : Ty.union found.1 = a ∨ Ty.union found.1 = b) with rfl | rfl
        · simp [isUnion] at hua
        · simp [isUnion] at hub
    rw [meet, intersect_knot, Rules.intersectStep, hopen, combine]
    simp only [dedup_pair, hk, if_false, hnone]
    cases hc : (Rules.combine h.answers a b).run <;>
      simp [Rules.fuseAll, Rules.fuseFirst, Rules.fuseWith, hc, Rules.interOf]

namespace Combinable

variable (hK : h.Combinable K)

include hK

theorem conjuncts (ha : K a) : conjuncts a = some [a] := conjuncts_of_member (hK.isMember ha) (hK.isInter ha)

theorem meet_eq (ha : K a) (hb : K b) : h.meet a b = match h.combine a b with
    | .apart => .inter (sortByKey [a, b])
    | .empty => .never
    | .into t => t :=
  meet_eq_of_member ⟨hK.isMember ha, hK.isInter ha⟩ ⟨hK.isMember hb, hK.isInter hb⟩ (hK.eq_of_key_eq ha hb)

end Combinable

/-! ## Members combined in some order -/

/-- What members come to that are combined pair by pair, in some order. -/
inductive Folds (h : Hierarchy) : Multiset Ty → Option (Multiset Ty) → Prop where
  | done {s : Multiset Ty} (hapart : ∀ {a b q}, s = a ::ₘ b ::ₘ q → h.combine a b = .apart) : Folds h s (some s)
  | empty {a b : Ty} {q : Multiset Ty} (hc : h.combine a b = .empty) : Folds h (a ::ₘ b ::ₘ q) none
  | round {a b t : Ty} {q : Multiset Ty} {r : Option (Multiset Ty)} (hc : h.combine a b = .into t)
    (hf : Folds h (t ::ₘ q) r) : Folds h (a ::ₘ b ::ₘ q) r

/-- Two members combine, and the others go on from there. -/
inductive Step (h : Hierarchy) (q : Multiset Ty) (r : Option (Multiset Ty)) (a b : Ty) : Prop where
  | empty (hc : h.combine a b = .empty) (hr : r = none)
  | into {t : Ty} (hc : h.combine a b = .into t) (hf : h.Folds (t ::ₘ q) r)

theorem Step.not_apart (hs : h.Step q r a b) : h.combine a b ≠ .apart := by
  cases hs <;> simp [*]

/-- Either no two members combine, or some two of them do first. -/
theorem Folds.cases (hf : h.Folds s r) :
    (r = some s ∧ ∀ {a b q}, s = a ::ₘ b ::ₘ q → h.combine a b = .apart) ∨
      ∃ a b q, s = a ::ₘ b ::ₘ q ∧ h.Step q r a b := by
  cases hf with
  | done hapart => exact .inl ⟨rfl, hapart⟩
  | empty hc => exact .inr ⟨_, _, _, rfl, .empty hc rfl⟩
  | round hc hf => exact .inr ⟨_, _, _, rfl, .into hc hf⟩

namespace Combinable

variable (hK : h.Combinable K)

include hK

/-- Two members exclude each other exactly if their meet is `never`. -/
theorem meet_eq_never_iff (ha : K a) (hb : K b) : h.meet a b = .never ↔ h.combine a b = .empty := by
  rw [hK.meet_eq ha hb]
  cases hc : h.combine a b with
  | into t =>
    have ht := isMember_iff.1 (hK.isMember (hK.into ha hb hc))
    refine ⟨fun heq => ?_, by simp⟩
    simp [heq, isNever] at ht
  | _ => simp

/-- Two members combine into their meet if it is a member. -/
theorem meet_eq_iff (ha : K a) (hb : K b) (ht : K t) : h.meet a b = t ↔ h.combine a b = .into t := by
  have hmember := isMember_iff.1 (hK.isMember ht)
  have hinter := hK.isInter ht
  rw [hK.meet_eq ha hb]
  cases hc : h.combine a b with
  | into t => simp
  | empty =>
    refine ⟨fun heq => ?_, by simp⟩
    simp [← heq, isNever] at hmember
  | apart =>
    refine ⟨fun heq => ?_, by simp⟩
    simp [← heq, Ty.isInter] at hinter

/-- Two members that stay side by side are told by their meet. -/
theorem meet_eq_meet_of_apart (ha : K a) (hb : K b) (hx : K x) (hy : K y) (hc : h.combine a b = .apart)
    (heq : h.meet a b = h.meet x y) : ({a, b} : Multiset Ty) = {x, y} := by
  cases hxy : h.combine x y with
  | empty =>
    rw [(hK.meet_eq_never_iff hx hy).2 hxy, hK.meet_eq_never_iff ha hb, hc] at heq
    simp at heq
  | into t =>
    have ht := hK.into hx hy hxy
    rw [(hK.meet_eq_iff hx hy ht).2 hxy, hK.meet_eq_iff ha hb ht, hc] at heq
    simp at heq
  | apart =>
    rw [hK.meet_eq ha hb, hK.meet_eq hx hy, hc, hxy] at heq
    have hperm := (sortByKey_perm [a, b]).symm.trans (Ty.inter.inj heq ▸ sortByKey_perm [x, y])
    exact Multiset.coe_eq_coe.2 hperm

end Combinable

section Unique

variable (hK : h.Combinable K) (hA : h.Associates K)

include hK hA

/-- What two members combine into does not depend on their order. -/
theorem combine_comm (ha : K a) (hb : K b) : h.combine a b = h.combine b a := by
  have hcomm := hA.comm ha hb
  cases hab : h.combine a b with
  | empty =>
    rw [← hK.meet_eq_never_iff ha hb, hcomm, hK.meet_eq_never_iff hb ha] at hab
    exact hab.symm
  | into t =>
    have ht := hK.into ha hb hab
    rw [← hK.meet_eq_iff ha hb ht, hcomm, hK.meet_eq_iff hb ha ht] at hab
    exact hab.symm
  | apart =>
    cases hba : h.combine b a with
    | apart => rfl
    | empty =>
      rw [← hK.meet_eq_never_iff hb ha, ← hcomm, hK.meet_eq_never_iff ha hb, hab] at hba
      simp at hba
    | into t =>
      have ht := hK.into hb ha hba
      rw [← hK.meet_eq_iff hb ha ht, ← hcomm, hK.meet_eq_iff ha hb ht, hab] at hba
      simp at hba

/-- The loop over the list of members combines them in one of the orders. -/
theorem folds_of_settled {ms : List Ty} {result : Option (List Ty)} (hms : ∀ m ∈ ms, K m)
    (hs : Rules.Settled h.answers ms result) : h.Folds ms (result.map (↑)) := by
  induction hs with
  | @done ms hapart =>
    have hboth : ms.Pairwise fun a b => h.combine a b = .apart ∧ h.combine b a = .apart :=
      hapart.imp_of_mem fun {a b} ha hb hc => ⟨hc, combine_comm hK hA (hms a ha) (hms b hb) ▸ hc⟩
    refine .done fun {a b q} heq => ?_
    have hperm : ms.Perm (a :: b :: q.toList) := by
      rw [← Multiset.coe_eq_coe, heq, ← Multiset.cons_coe, ← Multiset.cons_coe, Multiset.coe_toList]
    have hpair := (hperm.pairwise_iff And.symm).1 hboth
    exact (List.rel_of_pairwise_cons hpair (by simp)).1
  | empty hsub hc =>
    obtain ⟨q, hperm⟩ := hsub.exists_perm_append
    rw [Multiset.coe_eq_coe.2 hperm]
    exact Folds.empty (q := q) hc
  | round hf _ ih =>
    have hf' := hf.forall (fun a b t ha hb hc => hK.into ha hb hc) hms
    cases hf with
    | @fused before between after a b t heq hc =>
      have hfrom : (before ++ a :: (between ++ b :: after)).Perm (a :: b :: (before ++ (between ++ after))) := by
        refine List.perm_middle.trans (.cons _ ?_)
        rw [← List.append_assoc, ← List.append_assoc]
        exact List.perm_middle
      rw [heq, Multiset.coe_eq_coe.2 hfrom]
      refine Folds.round (q := (before ++ (between ++ after) : List Ty)) hc ?_
      rw [Multiset.cons_coe, ← Multiset.coe_eq_coe.2 List.perm_middle]
      exact ih hf'

theorem exists_folds (hs : ∀ m ∈ s, K m) : ∃ r, h.Folds s r := by
  have hms : ∀ m ∈ s.toList, K m := by simpa using hs
  have hfolds := folds_of_settled hK hA hms (Rules.fuseAll_settled h.answers _ s.toList (Nat.le_refl _))
  rw [Multiset.coe_toList] at hfolds
  exact ⟨_, hfolds⟩

/-- Two pairs with one meet are as good beside other members. -/
theorem folds_of_meet_eq (ha : K a) (hb : K b) (hx : K x) (hy : K y) (hq : ∀ m ∈ q, K m)
    (heq : h.meet a b = h.meet x y) : ∃ r, h.Folds (a ::ₘ b ::ₘ q) r ∧ h.Folds (x ::ₘ y ::ₘ q) r := by
  cases hc : h.combine a b with
  | empty =>
    rw [(hK.meet_eq_never_iff ha hb).2 hc] at heq
    exact ⟨none, .empty hc, .empty ((hK.meet_eq_never_iff hx hy).1 heq.symm)⟩
  | into t =>
    have ht := hK.into ha hb hc
    rw [(hK.meet_eq_iff ha hb ht).2 hc] at heq
    obtain ⟨r, hr⟩ := exists_folds hK hA (s := t ::ₘ q) (by simpa using ⟨ht, hq⟩)
    exact ⟨r, .round hc hr, .round ((hK.meet_eq_iff hx hy ht).1 heq.symm) hr⟩
  | apart =>
    have hpair := hK.meet_eq_meet_of_apart ha hb hx hy hc heq
    have hsame : a ::ₘ b ::ₘ q = x ::ₘ y ::ₘ q := by
      have hadd := congrArg (· + q) hpair
      simpa using hadd
    obtain ⟨r, hr⟩ := exists_folds hK hA (s := a ::ₘ b ::ₘ q) (by simpa using ⟨ha, hb, hq⟩)
    exact ⟨r, hr, hsame ▸ hr⟩

theorem Step.swap (hs : h.Step q r a b) (ha : K a) (hb : K b) : h.Step q r b a := by
  have hcomm := combine_comm hK hA ha hb
  cases hs with
  | empty hc hr => exact .empty (hcomm ▸ hc) hr
  | into hc hf => exact .into (hcomm ▸ hc) hf

/-- A step belongs to the two members, in either order. -/
theorem Step.congr (hs : h.Step q r a b) (ha : K a) (hb : K b) (heq : ({a, b} : Multiset Ty) = {x, y}) :
    h.Step q r x y := by
  rcases Multiset.cons_eq_cons.1 heq with ⟨rfl, hby⟩ | ⟨-, p, hb', hy'⟩
  · rw [← Multiset.singleton_inj.1 hby]
    exact hs
  · have hp : p = 0 := by
      have hcard := congrArg Multiset.card hb'
      simpa using hcard
    subst hp
    obtain rfl : b = x := Multiset.singleton_inj.1 hb'
    obtain rfl : y = a := Multiset.singleton_inj.1 hy'
    exact hs.swap hK hA ha hb

/-- Members of less than a number come to the same in all orders. -/
def SettledBelow (h : Hierarchy) (K : Ty → Prop) (n : Nat) : Prop :=
  ∀ {s : Multiset Ty} {r r' : Option (Multiset Ty)}, Multiset.card s < n → (∀ m ∈ s, K m) → h.Folds s r →
    h.Folds s r' → r = r'

omit hA in
theorem meet_never (ha : K a) : h.meet .never a = .never ∧ h.meet a .never = .never := by
  have hopen := hK.conjuncts ha
  constructor <;>
    simp [meet, intersect_knot, Rules.intersectStep, conjunctsAll, hopen, Ty.conjuncts]

/-- Where a member combines with two others, it does not matter which is first. -/
theorem Step.unique_of_shared {n : Nat} (ih : h.SettledBelow K n) (hn : Multiset.card q + 2 < n)
    (hx : K x) (hy : K y) (hz : K z) (hq : ∀ m ∈ q, K m) (hs : h.Step (z ::ₘ q) r y x)
    (hs' : h.Step (y ::ₘ q) r' x z) : r = r' := by
  have hassoc := hA.assoc hy hx hz hs.not_apart hs'.not_apart
  have hcard {a b : Ty} : Multiset.card (a ::ₘ b ::ₘ q) < n := by simpa using hn
  have hfrom {a b : Ty} (ha : K a) (hb : K b) : ∀ m ∈ a ::ₘ b ::ₘ q, K m := by simpa using ⟨ha, hb, hq⟩
  cases hs with
  | empty hc hr =>
    cases hs' with
    | empty hc' hr' => rw [hr, hr']
    | @into w hc' hf' =>
      have hw := hK.into hx hz hc'
      rw [(hK.meet_eq_never_iff hy hx).2 hc, (hK.meet_eq_iff hx hz hw).2 hc', (meet_never hK hz).1] at hassoc
      have hnone := (hK.meet_eq_never_iff hy hw).1 hassoc.symm
      rw [combine_comm hK hA hy hw] at hnone
      rw [hr]
      exact ih hcard (hfrom hw hy) (.empty hnone) hf'
  | @into v hc hf =>
    have hv := hK.into hy hx hc
    cases hs' with
    | empty hc' hr' =>
      rw [(hK.meet_eq_iff hy hx hv).2 hc, (hK.meet_eq_never_iff hx hz).2 hc', (meet_never hK hy).2] at hassoc
      rw [hr']
      exact ih hcard (hfrom hv hz) hf (.empty ((hK.meet_eq_never_iff hv hz).1 hassoc))
    | @into w hc' hf' =>
      have hw := hK.into hx hz hc'
      rw [(hK.meet_eq_iff hy hx hv).2 hc, (hK.meet_eq_iff hx hz hw).2 hc', hA.comm hy hw] at hassoc
      obtain ⟨r₀, hr, hr'⟩ := folds_of_meet_eq hK hA hv hz hw hy hq hassoc
      rw [ih hcard (hfrom hv hz) hf hr, ih hcard (hfrom hw hy) hf' hr']

/-- Nor does it matter which of two pairs is first that have no member in common. -/
theorem Step.unique_of_beside {n : Nat} (ih : h.SettledBelow K n) (hn : Multiset.card q + 3 < n)
    (ha : K a) (hb : K b) (hx : K x) (hy : K y) (hq : ∀ m ∈ q, K m) (hs : h.Step (x ::ₘ y ::ₘ q) r a b)
    (hs' : h.Step (a ::ₘ b ::ₘ q) r' x y) : r = r' := by
  have hcard {t c d : Ty} : Multiset.card (t ::ₘ c ::ₘ d ::ₘ q) < n := by
    simpa using hn
  have hfrom {t c d : Ty} (ht : K t) (hc : K c) (hd : K d) : ∀ m ∈ t ::ₘ c ::ₘ d ::ₘ q, K m := by
    simpa using ⟨ht, hc, hd, hq⟩
  -- the member that a pair was combined into moves behind the other pair
  have hmove {t c d : Ty} : t ::ₘ c ::ₘ d ::ₘ q = c ::ₘ d ::ₘ t ::ₘ q := by
    rw [Multiset.cons_swap t, Multiset.cons_swap t]
  cases hs with
  | empty hc hr =>
    cases hs' with
    | empty hc' hr' => rw [hr, hr']
    | into hc' hf' =>
      rw [hr]
      exact ih hcard (hfrom (hK.into hx hy hc') ha hb) (by rw [hmove]; exact .empty hc) hf'
  | @into v hc hf =>
    have hv := hK.into ha hb hc
    cases hs' with
    | empty hc' hr' =>
      rw [hr']
      exact ih hcard (hfrom hv hx hy) hf (by rw [hmove]; exact .empty hc')
    | @into w hc' hf' =>
      have hw := hK.into hx hy hc'
      obtain ⟨r₀, hr⟩ := exists_folds hK hA (s := v ::ₘ w ::ₘ q) (by simpa using ⟨hv, hw, hq⟩)
      have hleft : h.Folds (v ::ₘ x ::ₘ y ::ₘ q) r₀ := by
        rw [hmove]
        exact .round hc' (Multiset.cons_swap v w q ▸ hr)
      have hright : h.Folds (w ::ₘ a ::ₘ b ::ₘ q) r₀ := by
        rw [hmove]
        exact .round hc hr
      rw [ih hcard (hfrom hv hx hy) hf hleft, ih hcard (hfrom hw ha hb) hf' hright]

/-- **All orders come to the same.** The induction is on the number of members. Two first steps are about one
pair, about two pairs with a member in common, or about pairs that have nothing to do with one another. -/
theorem Folds.unique (hs : ∀ m ∈ s, K m) (hf : h.Folds s r) (hf' : h.Folds s r') : r = r' := by
  suffices hall : ∀ n, h.SettledBelow K n from hall _ (Nat.lt_succ_self _) hs hf hf'
  intro n
  induction n with
  | zero => exact fun hn => absurd hn (Nat.not_lt_zero _)
  | succ n ih =>
    intro s r r' hn hs hf hf'
    rcases hf.cases with ⟨rfl, hapart⟩ | ⟨a, b, q, rfl, hstep⟩
    · rcases hf'.cases with ⟨rfl, -⟩ | ⟨a, b, q, heq, hstep⟩
      · rfl
      · exact absurd (hapart heq) hstep.not_apart
    rcases hf'.cases with ⟨-, hapart⟩ | ⟨a', b', q', heq, hstep'⟩
    · exact absurd (hapart rfl) hstep.not_apart
    obtain ⟨ha, hb, hq⟩ : K a ∧ K b ∧ ∀ m ∈ q, K m := by simpa using hs
    obtain ⟨ha', hb', hq'⟩ : K a' ∧ K b' ∧ ∀ m ∈ q', K m := by
      rw [heq] at hs
      simpa using hs
    rcases pairs_of_cons_eq_cons heq with ⟨hpair, rfl⟩ | ⟨x, y, z, p, hpair, hpair', rfl, rfl⟩ |
      ⟨p, rfl, rfl⟩
    · -- both steps combine the same pair
      have hstep := hstep.congr hK hA ha hb hpair
      cases hstep with
      | empty hc hr =>
        cases hstep' with
        | empty hc' hr' => rw [hr, hr']
        | into hc' _ => simp [hc] at hc'
      | into hc hf =>
        cases hstep' with
        | empty hc' _ => simp [hc] at hc'
        | into hc' hf' =>
          obtain rfl := Fusion.into.inj (hc.symm.trans hc')
          refine ih ?_ (by simpa using ⟨hK.into ha' hb' hc, hq⟩) hf hf'
          simpa using hn
    · -- the pairs share a member
      have hxy : K x ∧ K y := by
        have hall : ∀ m ∈ ({x, y} : Multiset Ty), K m := hpair ▸ by simpa using ⟨ha, hb⟩
        simpa using hall
      obtain ⟨hz, hp⟩ : K z ∧ ∀ m ∈ p, K m := by simpa using hq
      have hstep := (hstep.congr hK hA ha hb hpair).swap hK hA hxy.1 hxy.2
      refine hstep.unique_of_shared hK hA ih ?_ hxy.1 hxy.2 hz hp (hstep'.congr hK hA ha' hb' hpair')
      simpa using hn
    · -- the pairs have nothing in common
      obtain ⟨-, -, hp⟩ : K a' ∧ K b' ∧ ∀ m ∈ p, K m := by simpa using hq
      refine hstep.unique_of_beside hK hA ih ?_ ha hb ha' hb' hp hstep'
      simpa using hn

/-! ## Intersections over members -/

omit hK hA in
/-- A repeated member changes nothing. -/
theorem Folds.cons_of_mem (ha : a ∈ s) (hf : h.Folds s r) : h.Folds (a ::ₘ s) r := by
  obtain ⟨q, rfl⟩ := Multiset.exists_cons_of_mem ha
  exact .round (combine_self a) hf

omit hK hA in
/-- Some of the members may be combined first. -/
theorem Folds.add {p : Multiset Ty} (hf : h.Folds s r) :
    (r = none → h.Folds (s + p) none) ∧
      ∀ s' r', r = some s' → h.Folds (s' + p) r' → h.Folds (s + p) r' := by
  induction hf with
  | done _ => exact ⟨by simp, fun s' r' heq hf' => by cases heq; exact hf'⟩
  | empty hc => exact ⟨fun _ => by simpa using Folds.empty hc, by simp⟩
  | round hc _ ih =>
    constructor
    · intro hr
      have hf' := ih.1 hr
      rw [Multiset.cons_add] at hf' ⊢
      rw [Multiset.cons_add]
      exact .round hc hf'
    · intro s' r' hr hf'
      have hf' := ih.2 s' r' hr hf'
      rw [Multiset.cons_add] at hf' ⊢
      rw [Multiset.cons_add]
      exact .round hc hf'

omit hA in
/-- So members may be counted once. -/
theorem Folds.of_dedup {flat : List Ty} (hflat : ∀ x ∈ flat, K x) (hf : h.Folds (dedup flat) r) :
    h.Folds flat r := by
  obtain ⟨rest, hperm⟩ := (dedup_sublist flat).exists_perm_append
  have hrest : ∀ x ∈ rest, x ∈ dedup flat := by
    intro x hx
    have hmem : x ∈ flat := hperm.mem_iff.2 (List.mem_append_right _ hx)
    exact (mem_dedup_iff fun x hx y hy => hK.eq_of_key_eq (hflat x hx) (hflat y hy)).2 hmem
  have hadd (xs : List Ty) (hxs : ∀ x ∈ xs, x ∈ dedup flat) : h.Folds (xs ++ dedup flat : List Ty) r := by
    induction xs with
    | nil => exact hf
    | cons x xs ih =>
      have hmem : x ∈ xs ++ dedup flat := List.mem_append_right _ (hxs x (by simp))
      exact Folds.cons_of_mem hmem (ih fun y hy => hxs y (by simp [hy]))
  rw [Multiset.coe_eq_coe.2 (hperm.trans List.perm_append_comm)]
  exact hadd rest hrest

omit hK hA in
/-- The intersection of members that do not combine is made in the order of their keys. -/
theorem run_interOf_perm {ms ms' : List Ty} (hp : ms.Perm ms') (hk : (ms.map key).Nodup) :
    (Rules.interOf ms : Ideal h Ty).run = (Rules.interOf ms' : Ideal h Ty).run := by
  have hlen := hp.length_eq
  rcases Rules.interOf_cases h ms with ⟨rfl, -⟩ | ⟨m, rfl, -⟩ | ⟨htwo, hrun⟩
  · rw [List.nil_perm.1 hp]
  · rw [List.singleton_perm.1 hp]
  · rcases Rules.interOf_cases h ms' with ⟨rfl, -⟩ | ⟨m, rfl, -⟩ | ⟨-, hrun'⟩
    · rw [List.length_nil] at hlen
      omega
    · rw [List.length_singleton] at hlen
      omega
    · rw [hrun, hrun', sortByKey_congr hp hk]

/-- The intersection is what its members come to, in whatever order they are combined. -/
theorem intersect_of_folds {ts flat : List Ty} (hp : conjunctsAll ts = some flat) (hflat : ∀ x ∈ flat, K x)
    (hf : h.Folds flat r) : r = none ∧ h.intersect ts = .never ∨
      ∃ ms : List Ty, r = some ms ∧ (ms.map key).Nodup ∧ (∀ m ∈ ms, K m) ∧
        h.intersect ts = (Rules.interOf ms : Ideal h Ty).run := by
  have hdedup (x) (hx : x ∈ dedup flat) : K x := hflat x (mem_of_mem_dedup hx)
  have hmet : Rules.Met h.answers ts (h.intersect ts) := intersect_knot h ts ▸ Rules.intersectStep_met _ ts
  generalize h.intersect ts = met at hmet ⊢
  cases hmet with
  | never ht hn =>
    have hparted := parted_of_conjunctsAll hp
    exact absurd hn (hparted.1 _ ht)
  | @spread flat' us before after hp' hunion =>
    obtain rfl := Option.some.inj (hp.symm.trans hp')
    have hmember := hK.isMember (hdedup (.union us) (by rw [hunion]; simp))
    simp [isMember, isUnion] at hmember
  | @excluded flat' hp' _ hs =>
    obtain rfl := Option.some.inj (hp.symm.trans hp')
    have hnone := (folds_of_settled hK hA hdedup hs).of_dedup hK hflat
    exact .inl ⟨hf.unique hK hA hflat hnone, rfl⟩
  | @settled flat' members hp' _ hs =>
    obtain rfl := Option.some.inj (hp.symm.trans hp')
    have hmembers : ∀ m ∈ members, K m := hs.forall (fun a b t ha hb hc => hK.into ha hb hc) hdedup rfl
    have hsome := (folds_of_settled hK hA hdedup hs).of_dedup hK hflat
    refine .inr ⟨members, hf.unique hK hA hflat hsome, ?_, hmembers, rfl⟩
    rw [List.Nodup, List.pairwise_map]
    refine (hs.apart rfl).imp_of_mem fun {a b} ha hb hapart hk => ?_
    obtain rfl := hK.eq_of_key_eq (hmembers a ha) (hmembers b hb) hk
    have hinto : Fusion.into a = .apart := (combine_self a).symm.trans hapart
    simp at hinto

theorem intersect_eq_of_folds {ts ts' flat flat' : List Ty} (hp : conjunctsAll ts = some flat)
    (hp' : conjunctsAll ts' = some flat') (hflat : ∀ x ∈ flat, K x) (hflat' : ∀ x ∈ flat', K x)
    (hf : h.Folds flat r) (hf' : h.Folds flat' r) : h.intersect ts = h.intersect ts' := by
  rcases intersect_of_folds hK hA hp hflat hf with ⟨rfl, hrun⟩ | ⟨ms, rfl, hk, -, hrun⟩
  · rcases intersect_of_folds hK hA hp' hflat' hf' with ⟨-, hrun'⟩ | ⟨ms', heq, -⟩
    · rw [hrun, hrun']
    · simp at heq
  · rcases intersect_of_folds hK hA hp' hflat' hf' with ⟨heq, -⟩ | ⟨ms', heq, -, -, hrun'⟩
    · simp at heq
    · rw [hrun, hrun', run_interOf_perm (Multiset.coe_eq_coe.1 (Option.some.inj heq)) hk]

end Unique

/-- Types that open into themselves are their own conjuncts. -/
theorem conjunctsAll_self {ms : List Ty} (hms : ∀ m ∈ ms, conjuncts m = some [m]) : conjunctsAll ms = some ms := by
  induction ms with
  | nil => rfl
  | cons m ms ih =>
    rw [conjunctsAll, hms m (by simp), ih fun x hx => hms x (by simp [hx])]
    rfl

/-- All conjuncts of the type are members. -/
def Over (K : Ty → Prop) (t : Ty) : Prop := ∀ x, Conjunct x t → K x

namespace Combinable

variable (hK : h.Combinable K)

include hK

theorem over_of_member (ha : K a) : Over K a := by
  intro x hx
  obtain ⟨rfl, -⟩ := (Conjunct.iff_of_not_inter (hK.isInter ha)).1 hx
  exact ha

theorem exists_conjunctsAll {ts : List Ty} (hts : ∀ t ∈ ts, Over K t) :
    ∃ flat, conjunctsAll ts = some flat ∧ (∀ x, x ∈ flat ↔ ∃ t ∈ ts, Conjunct x t) ∧ ∀ x ∈ flat, K x := by
  have hparted := conjunctsAll_parted ts
  cases hp : conjunctsAll ts with
  | none =>
    rw [hp] at hparted
    obtain ⟨t, ht, hn⟩ := hparted
    have hmember := hK.isMember (hts t ht _ hn)
    simp [Ty.isMember, Ty.isNever] at hmember
  | some flat =>
    rw [hp] at hparted
    refine ⟨flat, rfl, hparted.2, fun x hx => ?_⟩
    obtain ⟨t, ht, hconj⟩ := (hparted.2 x).1 hx
    exact hts t ht x hconj

/-- What an intersection opens into again are its members. -/
theorem conjuncts_interOf {ms : List Ty} (hms : ∀ m ∈ ms, K m) :
    ∃ ms', ms'.Perm ms ∧ Ty.conjuncts (Rules.interOf ms : Ideal h Ty).run = some ms' := by
  rcases Rules.interOf_cases h ms with ⟨rfl, hrun⟩ | ⟨m, rfl, hrun⟩ | ⟨-, hrun⟩
  · exact ⟨[], .refl _, by rw [hrun, Ty.conjuncts]⟩
  · exact ⟨[m], .refl _, by rw [hrun, hK.conjuncts (hms m (by simp))]⟩
  · refine ⟨sortByKey ms, sortByKey_perm ms, ?_⟩
    rw [hrun, Ty.conjuncts, conjunctsAll_self fun m hm => hK.conjuncts (hms m (mem_sortByKey.1 hm))]

end Combinable

theorem conjunctsAll_append {xs ys flat flat' : List Ty} (hxs : conjunctsAll xs = some flat)
    (hys : conjunctsAll ys = some flat') : conjunctsAll (xs ++ ys) = some (flat ++ flat') := by
  induction xs generalizing flat with
  | nil =>
    obtain rfl := Option.some.inj hxs
    exact hys
  | cons t ts ih =>
    rw [conjunctsAll] at hxs
    rw [List.cons_append, conjunctsAll]
    cases hfirst : conjuncts t with
    | none => simp [hfirst] at hxs
    | some first =>
      cases hrest : conjunctsAll ts with
      | none => simp [hfirst, hrest] at hxs
      | some rest =>
        obtain rfl : first ++ rest = flat := by simpa [hfirst, hrest] using hxs
        simp [ih hrest]

section Order

variable (hK : h.Combinable K) (hA : h.Associates K) {ts ts' xs ys : List Ty}

include hK hA

/-- **An intersection is that of its conjuncts**, whatever their order, their number and their nesting. -/
theorem intersect_congr (hts : ∀ t ∈ ts, Over K t) (hts' : ∀ t ∈ ts', Over K t)
    (hsame : ∀ x, (∃ t ∈ ts, Conjunct x t) ↔ ∃ t ∈ ts', Conjunct x t) : h.intersect ts = h.intersect ts' := by
  obtain ⟨flat, hp, hmem, hflat⟩ := hK.exists_conjunctsAll hts
  obtain ⟨flat', hp', hmem', hflat'⟩ := hK.exists_conjunctsAll hts'
  have hdedup {x} {flat : List Ty} (hflat : ∀ x ∈ flat, K x) : x ∈ dedup flat ↔ x ∈ flat :=
    mem_dedup_iff fun x hx y hy => hK.eq_of_key_eq (hflat x hx) (hflat y hy)
  have hperm : (dedup flat).Perm (dedup flat') := by
    rw [List.perm_ext_iff_of_nodup (.of_map _ (dedup_keys_nodup flat)) (.of_map _ (dedup_keys_nodup flat'))]
    intro x
    rw [hdedup hflat, hdedup hflat', hmem, hmem', hsame]
  obtain ⟨r, hr⟩ := exists_folds hK hA (s := dedup flat) (fun x hx => hflat x (mem_of_mem_dedup hx))
  have hr' : h.Folds (dedup flat') r := Multiset.coe_eq_coe.2 hperm ▸ hr
  exact intersect_eq_of_folds hK hA hp hp' hflat hflat' (hr.of_dedup hK hflat) (hr'.of_dedup hK hflat')

/-- **Some of the types may be intersected first.** -/
theorem intersect_intersect (hxs : ∀ t ∈ xs, Over K t) (hys : ∀ t ∈ ys, Over K t) :
    h.intersect (h.intersect xs :: ys) = h.intersect (xs ++ ys) := by
  obtain ⟨flat, hp, -, hflat⟩ := hK.exists_conjunctsAll hxs
  obtain ⟨flat', hp', -, hflat'⟩ := hK.exists_conjunctsAll hys
  have happend := conjunctsAll_append hp hp'
  have hall : ∀ x ∈ flat ++ flat', K x := by
    simpa [or_imp, forall_and] using ⟨hflat, hflat'⟩
  obtain ⟨r, hr⟩ := exists_folds hK hA (s := flat) (by simpa using hflat)
  rcases intersect_of_folds hK hA hp hflat hr with ⟨rfl, hrun⟩ | ⟨ms, rfl, -, hms, hrun⟩
  · -- nothing is left of the types that come first, and so of all
    have hnone : h.Folds (flat ++ flat' : List Ty) none := (hr.add (p := flat')).1 rfl
    rcases intersect_of_folds hK hA happend hall hnone with ⟨-, hrun'⟩ | ⟨ms, heq, -⟩
    · rw [hrun, hrun', intersect_knot, Rules.intersectStep, Ty.conjunctsAll, Ty.conjuncts]
      rfl
    · simp at heq
  · obtain ⟨ms', hperm, hopen⟩ := hK.conjuncts_interOf hms
    have hp'' : Ty.conjunctsAll (h.intersect xs :: ys) = some (ms' ++ flat') := by
      rw [hrun, Ty.conjunctsAll, hopen, hp']
    have hall' : ∀ x ∈ ms' ++ flat', K x := by
      simpa [or_imp, forall_and, hperm.mem_iff] using ⟨hms, hflat'⟩
    obtain ⟨r, hr'⟩ := exists_folds hK hA (s := (ms' ++ flat' : List Ty)) (by simpa using hall')
    have hfolds : h.Folds (flat ++ flat' : List Ty) r := by
      refine (hr.add (p := flat')).2 ms r rfl ?_
      rwa [← Multiset.coe_add, Multiset.coe_eq_coe.2 hperm] at hr'
    exact intersect_eq_of_folds hK hA hp'' happend hall' hall hr' hfolds

end Order

/-- Pairs and triples decide: the order and the grouping of members make no difference exactly if those of two
and of three make none. -/
theorem associates_iff (hK : h.Combinable K) : h.Associates K ↔
    (∀ ts ts' : List Ty, (∀ t ∈ ts, K t) → ts.Perm ts' → h.intersect ts = h.intersect ts') ∧
      ∀ xs ys : List Ty, (∀ t ∈ xs, K t) → (∀ t ∈ ys, K t) →
        h.intersect (h.intersect xs :: ys) = h.intersect (xs ++ ys) := by
  constructor
  · intro hA
    refine ⟨fun ts ts' hts hp => ?_, fun xs ys hxs hys => ?_⟩
    · refine intersect_congr hK hA (fun t ht => hK.over_of_member (hts t ht)) ?_ fun x => ?_
      · exact fun t ht => hK.over_of_member (hts t (hp.mem_iff.2 ht))
      · exact exists_congr fun t => and_congr_left' hp.mem_iff
    · exact intersect_intersect hK hA (fun t ht => hK.over_of_member (hxs t ht))
        fun t ht => hK.over_of_member (hys t ht)
  · rintro ⟨hperm, hgroup⟩
    have hcomm {a b : Ty} (ha : K a) (hb : K b) : h.meet a b = h.meet b a :=
      hperm [a, b] [b, a] (by simpa using ⟨ha, hb⟩) (.swap ..)
    refine ⟨hcomm, fun {a b c} ha hb hc _ hbc => ?_⟩
    have hleft : h.meet (h.meet a b) c = h.intersect [a, b, c] :=
      hgroup [a, b] [c] (by simpa using ⟨ha, hb⟩) (by simpa using hc)
    have hright : h.meet (h.meet b c) a = h.intersect [b, c, a] :=
      hgroup [b, c] [a] (by simpa using ⟨hb, hc⟩) (by simpa using ha)
    have hmiddle : h.meet a (h.meet b c) = h.meet (h.meet b c) a := by
      cases hcombine : h.combine b c with
      | apart => exact absurd hcombine hbc
      | empty =>
        rw [(hK.meet_eq_never_iff hb hc).2 hcombine, (meet_never hK ha).1, (meet_never hK ha).2]
      | into t =>
        have ht := hK.into hb hc hcombine
        rw [(hK.meet_eq_iff hb hc ht).2 hcombine, hcomm ha ht]
    rw [hleft, hmiddle, hright]
    refine hperm _ _ (by simpa using ⟨ha, hb, hc⟩) ?_
    exact (List.perm_append_comm : ([a] ++ [b, c]).Perm ([b, c] ++ [a]))

end Hierarchy

end FlowTyping
