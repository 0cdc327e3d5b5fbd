import FlowTyping.Proofs.Relation.Knot

/-!
# What unions, intersections and properties inherit

A property of types that holds of the parts of a type whenever it holds of the type, and of what is put
together from types that have it, is inherited by all answers: nothing in them is made up.

* **`Ty.Hereditary`** — such a property.
* **`Hierarchy.union_hereditary`**, **`Hierarchy.intersect_hereditary`**,
  **`Hierarchy.propertyOf_hereditary`** — the answers have it if the types that are asked about do.
-/

namespace FlowTyping

open Ty

namespace Ty

/-- A property that passes between a type and its parts. -/
structure Hereditary (P : Ty → Prop) : Prop where
  part : ∀ {s t : Ty}, P t → s ∈ t.parts → P s
  atom : ∀ {t : Ty}, t ∈ atoms → P t
  literal : ∀ l : Literal, P (.literal l)
  /-- Other properties under a tag that was there before. -/
  object : ∀ {tag : String} {before props : List (Property Ty)}, P (.object tag before) →
    (∀ p ∈ props, P p.type) → P (.object tag props)
  union : ∀ {ms : List Ty}, (∀ m ∈ ms, P m) → P (.union ms)
  inter : ∀ {ms : List Ty}, (∀ m ∈ ms, P m) → P (.inter ms)

theorem hereditary_true : Hereditary fun _ => True :=
  ⟨fun _ _ => trivial, fun _ => trivial, fun _ => trivial, fun _ _ => trivial, fun _ => trivial, fun _ => trivial⟩

namespace Hereditary

variable {P : Ty → Prop} {s t : Ty}

theorem member (hP : Hereditary P) (ht : P t) (hs : s ∈ t.members) : P s :=
  of_mem_members ht (fun _ => hP.part ht) hs

/-- The argument of a rest parameter is a part of the parameter's type. -/
theorem argType (hP : Hereditary P) {p : Param Ty} (hp : P p.type) : P (Rules.argType p) := by
  unfold Rules.argType
  split
  · rename_i elems rest _ heq
    rw [heq] at hp
    exact hP.part hp (List.mem_append_right _ (by simp))
  · exact hp

theorem conjunct (hP : Hereditary P) {ts flat : List Ty} (hts : ∀ t ∈ ts, P t)
    (hp : conjunctsAll ts = some flat) (ht : t ∈ flat) : P t := by
  obtain ⟨s, hs, hconj⟩ := ((parted_of_conjunctsAll hp).2 t).1 ht
  exact hconj.of_inter_closed (fun ms hms m hm => hP.part hms hm) (hts s hs)

end Hereditary

end Ty

/-! ## Answers -/

namespace Hierarchy

variable {h : Hierarchy} {P : Ty → Prop} {ts : List Ty}

theorem union_hereditary (hP : Hereditary P) (hts : ∀ t ∈ ts, P t) : P (h.union ts) := by
  refine union_forall ?_ ?_ ?_ ?_ hts
  · exact hP.atom (by simp [atoms])
  · exact hP.atom (by simp [atoms])
  · exact fun ms hms m hm => hP.part hms hm
  · exact fun ms _ _ hms => hP.union fun m hm => (hms m hm).1

end Hierarchy

namespace Rules

variable {h : Hierarchy} {P : Ty → Prop} {r : Rules (Ideal h)}

/-- Answers that inherit the property. -/
structure Inherits (P : Ty → Prop) (r : Rules (Ideal h)) : Prop where
  intersect : ∀ {ts : List Ty}, (∀ t ∈ ts, P t) → P (r.intersect ts).run
  property : ∀ {t : Ty} {name : Text} {p : Property Ty}, P t → (r.propertyOf t name).run = some p → P p.type

namespace Inherits

theorem meetProps (hr : Inherits P r) (merged : Property Ty) (ps : List (Property Ty)) (hm : P merged.type)
    (hps : ∀ p ∈ ps, P p.type) : P (meetProps r merged ps).run.type :=
  meetProps_type r (fun s t hs ht => hr.intersect (by simp [hs, ht])) merged ps hm hps

theorem combine (hP : Hereditary P) (hr : Inherits P r) {a b t : Ty} (ha : P a) (hb : P b)
    (hc : (combine r a b).run = .into t) : P t := by
  rcases combine_into r hc with rfl | rfl | hm
  · exact ha
  · exact hb
  · obtain ⟨tagA, propsA, tagB, propsB, tag, ps, rfl, rfl, htag, hps, rfl⟩ := mergeObjects_into r hm
    have hpropA (p) (hp : p ∈ propsA) : P p.type := hP.part ha (List.mem_map_of_mem hp)
    have hpropB (p) (hp : p ∈ propsB) : P p.type := hP.part hb (List.mem_map_of_mem hp)
    have hobject {props : List (Property Ty)} (hprops : ∀ p ∈ props, P p.type) : P (.object tag props) := by
      rcases eq_of_mergedTag htag with rfl | rfl
      · exact hP.object ha hprops
      · exact hP.object hb hprops
    refine hobject fun p hp => ?_
    rcases List.mem_append.1 (TypeStore.mem_of_mem_sortProps hp) with hp | hp
    · rcases mergedProps_some r hps hp with hp | ⟨pa, hpa, pb, hpb, heq⟩
      · exact hpropA p hp
      · rw [heq]
        exact hr.intersect (by simpa using ⟨hpropA pa hpa, hpropB pb hpb⟩)
    · exact hpropB p (List.mem_filter.1 hp).1

theorem met (hP : Hereditary P) (hr : Inherits P r) {ts : List Ty} {met : Ty} (hts : ∀ t ∈ ts, P t)
    (hmet : Met r ts met) : P met := by
  have hnever : P .never := hP.atom (by simp [atoms])
  have hpieces {flat : List Ty} (hp : conjunctsAll ts = some flat) (x) (hx : x ∈ dedup flat) : P x :=
    hP.conjunct hts hp (mem_of_mem_dedup hx)
  cases hmet with
  | never _ _ => exact hnever
  | excluded _ _ _ => exact hnever
  | @spread flat us before after hp hflat =>
    have hmem := hpieces hp
    rw [hflat] at hmem
    refine Hierarchy.union_hereditary hP fun t ht => ?_
    obtain ⟨u, hu, rfl⟩ := List.mem_map.1 ht
    refine hr.intersect fun t ht => ?_
    rcases List.mem_cons.1 ht with rfl | ht
    · exact hP.part (hmem (.union us) (by simp)) hu
    · exact hmem t (by rcases List.mem_append.1 ht with ht | ht <;> simp [ht])
  | @settled flat members hp hu hs =>
    have hmembers : ∀ m ∈ members, P m := hs.forall (fun a b t ha hb hc => hr.combine hP ha hb hc) (hpieces hp) rfl
    rcases interOf_cases h members with ⟨rfl, hrun⟩ | ⟨m, rfl, hrun⟩ | ⟨-, hrun⟩
    · rw [hrun]
      exact hP.atom (by simp [atoms])
    · rw [hrun]
      exact hmembers m (by simp)
    · rw [hrun]
      exact hP.inter fun m hm => hmembers m (mem_sortByKey.1 hm)

theorem propertyStep (hP : Hereditary P) (hr : Inherits P r) {t : Ty} {name : Text} {p : Property Ty}
    (ht : P t) (hp : (propertyStep r t name).run = some p) : P p.type := by
  cases t with
  | object tag props =>
    have hfind : findProp? props name = some p := by simpa [Rules.propertyStep] using hp
    exact hP.part ht (List.mem_map_of_mem (findProp?_some hfind).1)
  | tuple elems rest | string =>
    obtain ⟨-, rfl⟩ : name = lengthName ∧ _ = p := by simpa [Rules.propertyStep] using hp
    exact hP.atom (by simp [atoms])
  | literal l =>
    cases l with
    | text value =>
      obtain ⟨-, rfl⟩ : name = lengthName ∧ _ = p := by simpa [Rules.propertyStep] using hp
      exact hP.literal _
    | _ => simp [Rules.propertyStep] at hp
  | var v bound =>
    cases bound with
    | none => simp [Rules.propertyStep] at hp
    | some bound =>
      have hbound : P bound := hP.part ht (by simp [parts])
      exact hr.property hbound (by simpa [Rules.propertyStep] using hp)
  | inter ms =>
    -- what the members have is met, or joined in a union, and `P` is kept by both
    have hfound : ∀ q ∈ ms.filterMap fun t => (r.propertyOf t name).run, P q.type := by
      intro q hq
      obtain ⟨m, hm, hq⟩ := List.mem_filterMap.1 hq
      exact hr.property (hP.part ht hm) hq
    simp only [Rules.propertyStep, Ideal.run_bind, run_foundProps] at hp
    cases hlist : ms.filterMap fun t => (r.propertyOf t name).run with
    | nil => simp [hlist] at hp
    | cons q qs =>
      rw [hlist] at hp hfound
      obtain rfl : (Rules.meetProps r q qs).run = p := by simpa using hp
      exact hr.meetProps q qs (hfound q (by simp)) fun p hp => hfound p (by simp [hp])
  | union ms =>
    simp only [Rules.propertyStep, Ideal.run_bind] at hp
    cases hshared : (sharedProps r name ms).run with
    | none => simp [hshared] at hp
    | some ps =>
      obtain rfl : _ = p := by simpa [hshared] using hp
      refine Hierarchy.union_hereditary hP fun s hs => ?_
      obtain ⟨q, hq, rfl⟩ := List.mem_map.1 hs
      have hmem : some q ∈ ms.map fun t => (r.propertyOf t name).run := by
        rw [(sharedProps_some r).1 hshared]
        exact List.mem_map_of_mem hq
      obtain ⟨m, hm, hq⟩ := List.mem_map.1 hmem
      exact hr.property (hP.part ht hm) hq
  | _ => simp [Rules.propertyStep] at hp

end Inherits

theorem upTo_inherits (h : Hierarchy) (hP : Hereditary P) (k : Nat) : Inherits P (upTo k : Rules (Ideal h)) := by
  induction k with
  | zero => exact ⟨fun _ => hP.atom (by simp [upTo, atoms]), fun _ hp => by simp [upTo] at hp⟩
  | succ k ih => exact ⟨fun hts => ih.met hP hts (intersectStep_met _ _), fun ht hp => ih.propertyStep hP ht hp⟩

end Rules

namespace Hierarchy

variable {h : Hierarchy} {P : Ty → Prop} {ts : List Ty}

theorem intersect_hereditary (hP : Hereditary P) (hts : ∀ t ∈ ts, P t) : P (h.intersect ts) :=
  (Rules.upTo_inherits h hP _).intersect hts

theorem propertyOf_hereditary (hP : Hereditary P) {t : Ty} {name : Text} {p : Property Ty} (ht : P t)
    (hp : h.propertyOf t name = some p) : P p.type :=
  (Rules.upTo_inherits h hP _).property ht hp

end Hierarchy

end FlowTyping
