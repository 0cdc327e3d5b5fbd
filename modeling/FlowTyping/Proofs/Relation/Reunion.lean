import FlowTyping.Proofs.Relation.Reorder

/-!
# Members put together again

A union is taken apart by its members, and some of them are put together again. They were simplified
before, so nothing happens to them.

* **`Ty.Reduced`** — members that a union takes as they are; some of them are again so.
* **`Hierarchy.members_union_of_sublist`** — the union of some members of a type has just these members.
* **`Ty.Simplified.eq_of_members_eq`** — a simplified type is told by its members.
-/

namespace FlowTyping

open Ty

namespace Ty

/-- Members that a union takes as they are. -/
structure Reduced (ms : List Ty) : Prop where
  increasing : ms.Pairwise fun a b => a.key < b.key
  member : ∀ m ∈ ms, m.isMember = true
  base_not_mem : ∀ l : Literal, .literal l ∈ ms → l.base ∉ ms
  not_both : ¬ ∀ b : Bool, .literal (.bool b) ∈ ms

theorem UnionForm.reduced {ms : List Ty} (hms : UnionForm ms) : Reduced ms :=
  ⟨hms.increasing, hms.member, hms.base_not_mem, hms.not_both⟩

theorem alternativesAll_of_members {ms : List Ty} (hms : ∀ m ∈ ms, m.isMember = true) :
    alternativesAll ms = some ms := by
  induction ms with
  | nil => rfl
  | cons m ms ih =>
    have hm := hms m (by simp)
    have hfirst : alternatives m = some [m] := by
      cases m with
      | never | unknown | union _ => simp [isMember, isNever, isUnknown, isUnion] at hm
      | _ => rfl
    rw [alternativesAll, hfirst, ih fun s hs => hms s (by simp [hs])]
    rfl

theorem dedup_of_nodup {ts : List Ty} (hts : (ts.map key).Nodup) : dedup ts = ts := by
  have hkeyed (seen : List Text) (ts : List Ty) (hts : (ts.map key).Nodup)
      (hseen : ∀ t ∈ ts, t.key ∉ seen) : dedupKeyed seen (ts.map fun t => (t.key, t)) = ts := by
    induction ts generalizing seen with
    | nil => rfl
    | cons t ts ih =>
      obtain ⟨hnew, hrest⟩ := List.nodup_cons.1 hts
      rw [List.map_cons, dedupKeyed, if_neg (by simpa using hseen t (by simp))]
      refine congrArg (t :: ·) (ih _ hrest fun s hs => ?_)
      rw [List.mem_cons, not_or]
      exact ⟨fun heq => hnew (heq ▸ List.mem_map_of_mem hs), hseen s (by simp [hs])⟩
  exact hkeyed [] ts hts (by simp)

namespace Reduced

variable {ms ns : List Ty}

theorem sublist (hms : Reduced ms) (hns : ns.Sublist ms) : Reduced ns where
  increasing := hms.increasing.sublist hns
  member m hm := hms.member m (hns.subset hm)
  base_not_mem l hl hbase := hms.base_not_mem l (hns.subset hl) (hns.subset hbase)
  not_both hboth := hms.not_both fun b => hns.subset (hboth b)

/-- Nothing is dropped, and `boolean` is not added. -/
theorem simplified_eq (hms : Reduced ms) : simplified ms = ms := by
  have hadd : addBoolean ms = ms := by
    rw [addBoolean, if_neg]
    simp only [Bool.and_eq_true, hasKey_iff]
    rintro ⟨⟨⟨s, hs, hsk⟩, ⟨t, ht, htk⟩⟩, -⟩
    obtain rfl := Hierarchy.eq_bool_of_key_eq hsk
    obtain rfl := Hierarchy.eq_bool_of_key_eq htk
    exact hms.not_both fun b => by cases b <;> assumption
  rw [simplified, dedup_of_nodup (keys_nodup_of_increasing hms.increasing), hadd, dropAbsorbed]
  refine List.filter_eq_self.2 fun m hm => ?_
  cases m with
  | literal l =>
    simp only [Bool.not_eq_true', List.contains_eq_mem, decide_eq_false_iff_not, List.mem_map]
    rintro ⟨t, ht, hk⟩
    obtain rfl := eq_of_key_eq_atom (base_mem_atoms l) hk
    exact hms.base_not_mem l hm ht
  | _ => rfl

end Reduced

namespace Simplified

variable {s t : Ty}

theorem reduced (ht : t.Simplified) (hk : t ≠ .unknown) : Reduced t.members := by
  have hone {t : Ty} (hm : t.isMember = true) : Reduced [t] := by
    refine ⟨List.pairwise_singleton .., by simpa using hm, fun l hl hbase => ?_, fun hboth => ?_⟩
    · obtain rfl := List.mem_singleton.1 hl
      cases l <;> simp [Literal.base] at hbase
    · have heq := (List.mem_singleton.1 (hboth true)).trans (List.mem_singleton.1 (hboth false)).symm
      simp at heq
  cases t with
  | union ms => exact (ht ms rfl).reduced
  | never => exact ⟨.nil, by simp [members], by simp [members], by simp [members]⟩
  | unknown => exact absurd rfl hk
  | _ => exact hone rfl

/-- A simplified type is told by its members. -/
theorem eq_of_members_eq (hs : s.Simplified) (ht : t.Simplified) (hst : s.members = t.members) :
    s = t := by
  have hform {t : Ty} (ht : t.Simplified) : t = .never ∧ t.members = [] ∨ t.members = [t] ∨
      2 ≤ t.members.length ∧ t = .union t.members := by
    cases t with
    | never => exact .inl ⟨rfl, rfl⟩
    | union ms => exact .inr (.inr ⟨(ht ms rfl).two_le, rfl⟩)
    | _ => exact .inr (.inl rfl)
  rcases hform hs with ⟨rfl, hm⟩ | hm | ⟨hlen, hm⟩ <;> rcases hform ht with ⟨rfl, hm'⟩ | hm' | ⟨hlen', hm'⟩
  · rfl
  · simp [hm, hm'] at hst
  · simp [← hst, hm] at hlen'
  · simp [hm, hm'] at hst
  · simpa [hm, hm'] using hst
  · simp [← hst, hm] at hlen'
  · simp [hst, hm'] at hlen
  · simp [hst, hm'] at hlen
  · rw [hm, hm', hst]

end Simplified
end Ty

namespace Hierarchy

variable {t : Ty} {ms : List Ty}

theorem members_union_of_reduced (h : Hierarchy) (hms : Reduced ms) : (h.union ms).members = ms := by
  rw [union_eq, alternativesAll_of_members hms.member]
  dsimp only
  rw [hms.simplified_eq]
  rcases unionOf_cases h ms with ⟨rfl, hrun⟩ | ⟨m, rfl, hrun⟩ | ⟨-, hrun⟩
  · rw [hrun]
    rfl
  · have hm := isMember_iff.1 (hms.member m (by simp))
    rw [hrun, members_of_not_union hm.1 hm.2.1]
  · rw [hrun, sortByKey_of_increasing hms.increasing]
    rfl

/-- **The union of some members of a type has just these members.** -/
theorem members_union_of_sublist (h : Hierarchy) (ht : t.Simplified) (hms : ms.Sublist t.members) :
    (h.union ms).members = ms := by
  by_cases hk : t = .unknown
  · subst hk
    -- `unknown` is its own only member
    obtain rfl | rfl : ms = [] ∨ ms = [.unknown] := by
      simpa [members, List.sublist_singleton] using hms
    · rfl
    · rw [union_unknown (by simp) (.self rfl rfl)]
      rfl
  · exact members_union_of_reduced h ((ht.reduced hk).sublist hms)

/-- A type is the union of its members. -/
theorem union_members (h : Hierarchy) (ht : t.Simplified) : h.union t.members = t :=
  (union_simplified h _).eq_of_members_eq ht (members_union_of_sublist h ht (.refl _))

end Hierarchy

/-- An entry that is a union was simplified. -/
theorem Universe.Sound.simplified {h : Hierarchy} {u : Universe} {t : Ty} (hu : u.Sound h) (ht : u.Keeps t) :
    t.Simplified :=
  fun ms heq => by
    subst heq
    exact hu.orderly ht

end FlowTyping
