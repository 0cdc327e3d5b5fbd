import FlowTyping.Proofs.Relation.Join
import FlowTyping.Proofs.Relation.Lineage
import FlowTyping.Proofs.Relation.Reunion

/-!
# Types without class tags

No class has a say in what is answered about types whose shapes carry no tags. So members that stayed side by
side when an intersection was made stay so whatever was declared since, and the intersection of the members of an
entry is that entry again.

* **`Ty.Untagged`** — types without class tags, and **`Ty.TagsIn`** — types whose tags satisfy a condition.
* **`Hierarchy.intersect_of_apart`** — an intersection takes members that do not combine as they are.
* **`Universe.Sound.apart_of_settled`** — members of a settled entry do not combine, in either order.
* **`Universe.Sound.intersect_members`** — an entry without tags is the intersection of its members.
* **`Hierarchy.Extends`** — a hierarchy with classes added. A class is declared once and after its parents, so
  nothing changes about what the others derive from.
* **`Ty.Known h`** — every tag in the type is the name of a declared class.
* **`Universe.Sound.intersect_of_known`** — an intersection that was settled when its tags were known is still
  the intersection of its members.
-/

namespace FlowTyping

open Ty

namespace Ty

variable {s t : Ty}

/-- No shape in the type carries a class tag. -/
inductive Untagged : Ty → Prop where
  | intro {t : Ty} (hown : ∀ tag props, t = .object tag props → tag = "") (hparts : ∀ s ∈ t.parts, Untagged s) :
    Untagged t

/-- Every tag in the type satisfies the condition. -/
inductive TagsIn (D : String → Prop) : Ty → Prop where
  | intro {t : Ty} (hown : ∀ tag props, t = .object tag props → tag = "" ∨ D tag)
    (hparts : ∀ s ∈ t.parts, TagsIn D s) : TagsIn D t

namespace TagsIn

variable {D : String → Prop}

theorem own (ht : TagsIn D t) {tag : String} {props : List (Property Ty)} (heq : t = .object tag props) :
    tag = "" ∨ D tag := by
  cases ht with
  | intro hown _ => exact hown tag props heq

theorem part (ht : TagsIn D t) (hs : s ∈ t.parts) : TagsIn D s := by
  cases ht with
  | intro _ hparts => exact hparts s hs

theorem hereditary (D : String → Prop) : Hereditary (TagsIn D) where
  part := part
  atom ht := by
    simp only [atoms, List.mem_cons, List.not_mem_nil, or_false] at ht
    rcases ht with rfl | rfl | rfl | rfl | rfl | rfl | rfl <;> exact .intro (by simp) (by simp [parts])
  literal _ := .intro (by simp) (by simp [parts])
  object hbefore hprops := by
    refine .intro (fun _ _ heq => ?_) fun s hs => ?_
    · cases heq
      exact hbefore.own rfl
    · obtain ⟨p, hp, rfl⟩ := List.mem_map.1 hs
      exact hprops p hp
  union hms := .intro (by simp) hms
  inter hms := .intro (by simp) hms

end TagsIn

theorem Untagged.own (ht : Untagged t) {tag : String} {props : List (Property Ty)} (heq : t = .object tag props) :
    tag = "" := by
  cases ht with
  | intro hown _ => exact hown tag props heq

theorem untagged_eq : Untagged = TagsIn fun _ => False := by
  funext t
  refine propext ⟨fun ht => ?_, fun ht => ?_⟩
  · induction ht with
    | intro hown _ ih => exact .intro (fun tag props heq => .inl (hown tag props heq)) ih
  · induction ht with
    | intro hown _ ih => exact .intro (fun tag props heq => (hown tag props heq).resolve_right id) ih

theorem untagged_hereditary : Hereditary Untagged := untagged_eq ▸ TagsIn.hereditary _

theorem Untagged.part (ht : Untagged t) (hs : s ∈ t.parts) : Untagged s := untagged_hereditary.part ht hs

/-- Any two hierarchies are of one lineage where no tag is. -/
theorem untagged_lineage (h k : Hierarchy) : Rules.SameLineage Untagged h k :=
  ⟨fun hs _ hne => absurd (hs.own rfl) hne⟩

theorem mergeable_of_untagged {a b : Ty} (ha : Untagged a) (hb : Untagged b) (h k : Hierarchy) :
    mergeable h a b = mergeable k a b := by
  cases a with
  | object tagA propsA =>
    cases b with
    | object tagB propsB =>
      obtain rfl := ha.own rfl
      obtain rfl := hb.own rfl
      rfl
    | _ => rfl
  | _ => rfl

end Ty

namespace Hierarchy

variable {h : Hierarchy} {ms : List Ty}

/-- Whether two types without tags combine is the same for all classes. -/
theorem combine_apart_of_untagged {a b : Ty} (ha : Untagged a) (hb : Untagged b) {k : Hierarchy}
    (hc : (Rules.combine k.answers a b).run = .apart) : (Rules.combine h.answers a b).run = .apart := by
  obtain ⟨hab, hba, hdisjoint, hmerge⟩ := Rules.combine_eq_apart_iff.1 hc
  refine Rules.combine_eq_apart_iff.2 ⟨?_, ?_, ?_, ?_⟩
  · rw [subtype_eq_of_lineage untagged_hereditary (untagged_lineage h k) ha hb, hab]
  · rw [subtype_eq_of_lineage untagged_hereditary (untagged_lineage h k) hb ha, hba]
  · rw [disjoint_eq_of_lineage untagged_hereditary (untagged_lineage h k) ha hb, hdisjoint]
  · rw [mergeable_of_untagged ha hb h k, hmerge]

/-- Members that do not combine are settled as they are. -/
theorem settled_eq_of_apart {result : Option (List Ty)}
    (hapart : ms.Pairwise fun a b => (Rules.combine h.answers a b).run = .apart)
    (hs : Rules.Settled h.answers ms result) : result = some ms := by
  cases hs with
  | done _ => rfl
  | empty hsub hc =>
    have hpair := (List.pairwise_cons.1 (hapart.sublist hsub)).1 _ (List.mem_singleton_self _)
    rw [hpair] at hc
    cases hc
  | round hf _ =>
    cases hf with
    | fused heq hc =>
      subst heq
      have hpair := (List.pairwise_cons.1 (List.pairwise_append.1 hapart).2.1).1 _
        (List.mem_append_right _ (List.mem_cons_self ..))
      rw [hpair] at hc
      cases hc

/-- The members of an intersection do not come apart any more. -/
theorem conjunctsAll_of_interForm (hms : InterForm ms) : conjunctsAll ms = some ms :=
  conjunctsAll_self fun m hm => by
    obtain ⟨hm, hi⟩ := hms.member m hm
    obtain ⟨-, hn, hk⟩ := isMember_iff.1 hm
    cases m <;> first | rfl | simp [isNever, isUnknown, isInter] at hn hk hi

/-- An intersection takes members that do not combine as they are. -/
theorem intersect_of_apart (hms : InterForm ms)
    (hapart : ms.Pairwise fun a b => (Rules.combine h.answers a b).run = .apart) : h.intersect ms = .inter ms := by
  have hmember (m) (hm : m ∈ ms) : m.isUnion = false ∧ m.isNever = false ∧ m.isUnknown = false ∧ m.isInter = false := by
    obtain ⟨hm, hi⟩ := hms.member m hm
    obtain ⟨hu, hn, hk⟩ := isMember_iff.1 hm
    exact ⟨hu, hn, hk, hi⟩
  have hopen := conjunctsAll_of_interForm hms
  have hdedup : dedup ms = ms := dedup_of_nodup (keys_nodup_of_increasing hms.increasing)
  have hmet : Rules.Met h.answers ms (h.intersect ms) := by
    rw [intersect_knot]
    exact Rules.intersectStep_met _ _
  generalize h.intersect ms = t at hmet
  cases hmet with
  | never ht hn =>
    obtain ⟨rfl, -⟩ := (Conjunct.iff_of_not_inter (hmember _ ht).2.2.2).1 hn
    exact absurd (hmember _ ht).2.1 (by simp [isNever])
  | @spread _ us _ _ hp hflat =>
    obtain rfl := Option.some.inj (hopen.symm.trans hp)
    have hunion := (hmember (.union us) (by rw [← hdedup, hflat]; simp)).1
    simp [isUnion] at hunion
  | excluded hp _ hs =>
    obtain rfl := Option.some.inj (hopen.symm.trans hp)
    rw [hdedup] at hs
    exact absurd (settled_eq_of_apart hapart hs) (by simp)
  | @settled _ members hp _ hs =>
    obtain rfl := Option.some.inj (hopen.symm.trans hp)
    rw [hdedup] at hs
    obtain rfl := Option.some.inj (settled_eq_of_apart hapart hs)
    rcases Rules.interOf_cases h members with ⟨rfl, -⟩ | ⟨m, rfl, -⟩ | ⟨-, hrun⟩
    · exact absurd hms.two_le (by simp)
    · exact absurd hms.two_le (by simp)
    · rw [hrun, sortByKey_of_increasing hms.increasing]

end Hierarchy

/-- Settled members do not combine in either order, if disjointness does not depend on it. -/
theorem Ty.SettledIn.oriented {h : Hierarchy} {ms : List Ty} (hs : SettledIn h ms)
    (hcomm : ∀ a ∈ ms, ∀ b ∈ ms, h.disjoint a b = h.disjoint b a) :
    ms.Pairwise fun a b => (Rules.combine h.answers a b).run = .apart := by
  refine hs.imp_of_mem fun {a b} ha hb hc => ?_
  rcases hc with hc | hc
  · exact hc
  · obtain ⟨hba, hab, hdisjoint, hmerge⟩ := Rules.combine_eq_apart_iff.1 hc
    refine Rules.combine_eq_apart_iff.2 ⟨hab, hba, ?_, ?_⟩
    · rw [hcomm a ha b hb, hdisjoint]
    · rw [Universe.mergeable_comm, hmerge]

namespace Universe

variable {h : Hierarchy} {u : Universe} {ms : List Ty}

/-- The members of an entry that were settled do not combine, in either order. -/
theorem Sound.apart_of_settled (hu : u.Sound h) (ht : u.Keeps (.inter ms)) (hs : SettledIn h ms) :
    ms.Pairwise fun a b => (Rules.combine h.answers a b).run = .apart :=
  hs.oriented fun a ha b hb => hu.disjoint_comm (hu.part ht a ha) (hu.part ht b hb)

/-- **An intersection that is settled is the intersection of its members.** -/
theorem Sound.intersect_of_settled (hu : u.Sound h) (ht : u.Keeps (.inter ms)) (hs : SettledIn h ms) :
    h.intersect ms = .inter ms :=
  Hierarchy.intersect_of_apart (hu.orderly ht) (hu.apart_of_settled ht hs)

/-- An intersection without tags is settled, since it was when it was made. -/
theorem Sound.settled_of_untagged (hu : u.Sound h) (ht : u.Keeps (.inter ms)) (htags : Untagged (.inter ms)) :
    SettledIn h ms := by
  refine (hu.apart ht).imp_of_mem fun {a b} ha hb hapart => ?_
  have htag (m) (hm : m ∈ ms) : Untagged m := htags.part hm
  obtain ⟨k, hc⟩ := hapart
  exact hc.imp (Hierarchy.combine_apart_of_untagged (htag a ha) (htag b hb))
    (Hierarchy.combine_apart_of_untagged (htag b hb) (htag a ha))

/-- **An intersection without tags is the intersection of its members.** -/
theorem Sound.intersect_members (hu : u.Sound h) (ht : u.Keeps (.inter ms)) (htags : Untagged (.inter ms)) :
    h.intersect ms = .inter ms :=
  hu.intersect_of_settled ht (hu.settled_of_untagged ht htags)

end Universe
end FlowTyping

/-! ## Classes that are added -/

namespace FlowTyping

open Ty Relation

namespace Hierarchy

variable {h k l : Hierarchy} {c : ClassDecl} {x : String}

/-- A class with this name is declared. -/
def Declares (h : Hierarchy) (x : String) : Prop := ∃ c ∈ h.classes, c.name = x

/-- What is declared stays so, and derives from the same classes. -/
structure Extends (h k : Hierarchy) : Prop where
  declares : ∀ {x : String}, h.Declares x → k.Declares x
  derives : ∀ {x : String}, h.Declares x → ∀ y, k.derives x y = h.derives x y

theorem Extends.refl (h : Hierarchy) : h.Extends h := ⟨id, fun _ _ => rfl⟩

theorem Extends.trans (hhk : h.Extends k) (hkl : k.Extends l) : h.Extends l :=
  ⟨fun hx => hkl.declares (hhk.declares hx), fun hx y =>
    (hkl.derives (hhk.declares hx) y).trans (hhk.derives hx y)⟩

/-- **Declaring a class extends the hierarchy.** -/
theorem extends_declare (hh : Declared h.classes) (hk : h.declare c = .ok k) : h.Extends k := by
  obtain ⟨hclasses, hdeclared⟩ := declared_of_declare hh hk
  refine ⟨fun ⟨d, hd, hx⟩ => ⟨d, hclasses ▸ List.mem_cons_of_mem _ hd, hx⟩, fun {x} hx y => ?_⟩
  obtain ⟨d, hd, rfl⟩ := hx
  have hcs : Declared (c :: h.classes) := hclasses ▸ hdeclared
  exact derives_declare_of_ne hh hk (hcs.1 d hd) y

end Hierarchy

namespace Ty

variable {h k : Hierarchy}

/-- Every tag in the type is the name of a declared class. -/
def Known (h : Hierarchy) : Ty → Prop := TagsIn h.Declares

/-- Classes that are added change nothing for known tags. -/
theorem known_lineage (hk : h.Extends k) : Rules.SameLineage (Known h) h k :=
  ⟨fun hs _ hne _ => ((hk.derives ((TagsIn.own hs rfl).resolve_left hne)) _).symm⟩

end Ty

/-- Where every tag is declared, the tags of all entries are known. -/
theorem Universe.Sound.known {h : Hierarchy} {u : Universe} {t : Ty} (hu : u.Sound h)
    (htags : ∀ tag props, u.Keeps (.object tag props) → tag = "" ∨ h.Declares tag) (ht : u.Keeps t) : Known h t := by
  induction t using parts_induction with
  | step t ih =>
    refine .intro (fun tag props heq => ?_) fun s hs => ih s hs (hu.part ht s hs)
    subst heq
    exact htags tag props ht

/-- **An intersection that was settled when its tags were known is still the intersection of its members.** -/
theorem Universe.Sound.intersect_of_known {h k : Hierarchy} {u : Universe} {ms : List Ty} (hu : u.Sound h)
    (ht : u.Keeps (.inter ms)) (hs : SettledIn h ms) (hknown : Known h (.inter ms)) (hk : h.Extends k) :
    k.intersect ms = .inter ms := by
  have hmember (m) (hm : m ∈ ms) : Known h m := hknown.part hm
  rw [← Hierarchy.intersect_eq_of_lineage (TagsIn.hereditary h.Declares) (known_lineage hk) hmember]
  exact hu.intersect_of_settled ht hs

end FlowTyping
