import FlowTyping.Proofs.Relation.Follow
import FlowTyping.Proofs.Store.Session
import FlowTyping.Proofs.Store.Stalling

/-!
# Questions come to an end

A question about types asks other questions, also about intersections that were not there before. The rules
are run here with calls that stall in the place of all calls nested deeper than a number, and a question has
an answer nevertheless, if that number is at least its rank: so none of these calls is made. The measure is
how deep types nest. It is kept from call to call because an intersection goes no deeper than its arguments,
and a property less deep than the type it is of, which is why both are part of what the induction is about.

No answer is taken to be right: the memory of the universe may hold anything. All that is used of a universe
is that the names in its types are words, so that the tree kept for a type is as deep as the type.

* **`Rules.Ending`** — what holds of the answers to questions below a rank, one lemma for each rule, and
  **`Rules.Ending.next`**, by which it holds of their rules on rank one more.
* **`Universe.nesting_bounded`** — the bounds on unions, intersections and properties, and that all four
  questions come to an end, with calls nested no deeper than `Rules.nestingBound`.
-/

namespace FlowTyping.Rules

open Ty

/-- Every question stalls. -/
def stalled : Rules Stalling :=
  { subtype := fun _ _ => failure
    disjoint := fun _ _ => failure
    propertyOf := fun _ _ => failure
    intersect := fun _ => failure }

/-- The rules with calls nested at most `k` deep: a deeper one stalls. -/
def nested (k : Nat) : Rules Stalling := next^[k] stalled

/-- Questions below a rank do not stall, and what they find keeps the bounds of what they are about. -/
structure Ending (n k : Nat) (r : Rules Stalling) (r' : Rules InUniverse) : Prop where
  subtype : ∀ {a b : Ty}, a.Slender n → b.Slender n → subtypeRank n a b < k →
    Ends (r.subtype a b) (r'.subtype a b) fun _ => True
  disjoint : ∀ {a b : Ty}, a.Slender n → b.Slender n → disjointRank n a b < k →
    Ends (r.disjoint a b) (r'.disjoint a b) fun _ => True
  property : ∀ {t : Ty} (name : Text), t.Slender n → propertyRank n t < k →
    Ends (r.propertyOf t name) (r'.propertyOf t name) fun found => ∀ p ∈ found, p.type.Confined n (t.depth - 1)
  intersect : ∀ {ts : List Ty}, (∀ t ∈ ts, t.Slender n) → intersectRank n ts < k →
    Ends (r.intersect ts) (r'.intersect ts) (Confined n (greatest depth ts))

variable {r : Rules Stalling} {r' : Rules InUniverse} {n d k : Nat} {a b s t : Ty}

/-! ## The loops of the rules -/

section Loops

variable {P : Ty → Prop}

theorem ends_propsSubtype {props : List (Property Ty)}
    (hprop : ∀ name, Ends (r.propertyOf a name) (r'.propertyOf a name) fun found => ∀ p ∈ found, P p.type)
    (hsub : ∀ pb ∈ props, ∀ s, P s → Ends (r.subtype s pb.type) (r'.subtype s pb.type) fun _ => True) :
    Ends (propsSubtype r a props) (propsSubtype r' a props) fun _ => True := by
  induction props with
  | nil => exact .pure trivial
  | cons pb rest ih =>
    replace ih := ih fun p hp => hsub p (by simp [hp])
    rw [propsSubtype, propsSubtype]
    refine .bind (hprop _) fun found hfound => ?_
    cases found with
    | none => exact .ite ih (.pure trivial)
    | some pa =>
      have htype := hsub pb (by simp) pa.type (hfound pa rfl)
      exact .ite (.pure trivial) (.ite (.pure trivial) (.bind htype fun _ _ => .ite ih (.pure trivial)))

theorem ends_elemsSubtype {restA restB : Option Ty} {elemsA elemsB : List (Elem Ty)}
    (hsub : ∀ s ∈ elemsA.map (·.type) ++ restA.toList, ∀ t ∈ elemsB.map (·.type) ++ restB.toList,
      Ends (r.subtype s t) (r'.subtype s t) fun _ => True) :
    Ends (elemsSubtype r restA restB elemsA elemsB) (elemsSubtype r' restA restB elemsA elemsB)
      fun _ => True := by
  induction elemsA generalizing elemsB with
  | nil =>
    induction elemsB with
    | nil =>
      rw [elemsSubtype.eq_def, elemsSubtype.eq_def]
      cases restA with
      | none => exact .pure trivial
      | some ra =>
        cases restB with
        | none => exact .pure trivial
        | some rb => exact hsub ra (by simp) rb (by simp)
    | cons eb bs ih =>
      replace ih := ih fun s hs t ht => hsub s hs t (List.mem_cons_of_mem _ ht)
      rw [elemsSubtype.eq_def, elemsSubtype.eq_def r']
      refine .ite (.pure trivial) ?_
      cases restA with
      | none => exact ih
      | some ra => exact .bind (hsub ra (by simp) eb.type (by simp)) fun _ _ => .ite ih (.pure trivial)
  | cons ea as ih =>
    cases elemsB with
    | nil =>
      replace ih := @ih [] fun s hs t ht => hsub s (List.mem_cons_of_mem _ hs) t ht
      rw [elemsSubtype.eq_def, elemsSubtype.eq_def r']
      cases restB with
      | none => exact .pure trivial
      | some rb => exact .bind (hsub ea.type (by simp) rb (by simp)) fun _ _ => .ite ih (.pure trivial)
    | cons eb bs =>
      replace ih := @ih bs fun s hs t ht => hsub s (List.mem_cons_of_mem _ hs) t (List.mem_cons_of_mem _ ht)
      rw [elemsSubtype.eq_def, elemsSubtype.eq_def r']
      refine .ite (.pure trivial) ?_
      exact .bind (hsub ea.type (by simp) eb.type (by simp)) fun _ _ => .ite ih (.pure trivial)

theorem ends_paramsSubtype {paramsA paramsB : List (Param Ty)}
    (hsub : ∀ pa ∈ paramsA, ∀ pb ∈ paramsB,
      Ends (r.subtype (argType pb) (argType pa)) (r'.subtype (argType pb) (argType pa)) fun _ => True) :
    Ends (paramsSubtype r paramsA paramsB) (paramsSubtype r' paramsA paramsB) fun _ => True := by
  induction paramsA generalizing paramsB with
  | nil => exact .pure trivial
  | cons pa as ih =>
    cases paramsB with
    | nil => exact .pure trivial
    | cons pb bs =>
      refine .bind (hsub pa (by simp) pb (by simp)) fun _ _ => .ite (ih fun p hp q hq => ?_) (.pure trivial)
      exact hsub p (by simp [hp]) q (by simp [hq])

theorem ends_elemsDisjoint {elemsA elemsB : List (Elem Ty)}
    (hdis : ∀ ea ∈ elemsA, ∀ eb ∈ elemsB,
      Ends (r.disjoint ea.type eb.type) (r'.disjoint ea.type eb.type) fun _ => True) :
    Ends (elemsDisjoint r elemsA elemsB) (elemsDisjoint r' elemsA elemsB) fun _ => True := by
  induction elemsA generalizing elemsB with
  | nil => exact .pure trivial
  | cons ea as ih =>
    cases elemsB with
    | nil => exact .pure trivial
    | cons eb bs =>
      replace ih := @ih bs fun x hx y hy => hdis x (by simp [hx]) y (by simp [hy])
      rw [elemsDisjoint, elemsDisjoint]
      exact .ite (.bind (hdis ea (by simp) eb (by simp)) fun _ _ => .ite (.pure trivial) ih) ih

theorem ends_foundProps {name : Text} {ts : List Ty}
    (hprop : ∀ t ∈ ts, Ends (r.propertyOf t name) (r'.propertyOf t name) fun found => ∀ p ∈ found, P p.type) :
    Ends (foundProps r name ts) (foundProps r' name ts) fun ps => ∀ p ∈ ps, P p.type := by
  induction ts with
  | nil => exact .pure (by simp)
  | cons t ts ih =>
    replace ih := ih fun s hs => hprop s (by simp [hs])
    rw [foundProps, foundProps]
    refine .bind (hprop t (by simp)) fun found hfound => ?_
    cases found with
    | none => exact ih
    | some p => exact .bind ih fun ps hps => .pure (List.forall_mem_cons.2 ⟨hfound p rfl, hps⟩)

theorem ends_sharedProps {name : Text} {ts : List Ty}
    (hprop : ∀ t ∈ ts, Ends (r.propertyOf t name) (r'.propertyOf t name) fun found => ∀ p ∈ found, P p.type) :
    Ends (sharedProps r name ts) (sharedProps r' name ts) fun found => ∀ ps ∈ found, ∀ p ∈ ps, P p.type := by
  induction ts with
  | nil => exact .pure (by simp)
  | cons t ts ih =>
    replace ih := ih fun s hs => hprop s (by simp [hs])
    rw [sharedProps, sharedProps]
    refine .bind (hprop t (by simp)) fun found hfound => ?_
    cases found with
    | none => exact .pure (by simp)
    | some p =>
      refine .bind ih fun rest hrest => ?_
      cases rest with
      | none => exact .pure (by simp)
      | some ps => exact .pure (by simpa using ⟨hfound p rfl, hrest ps rfl⟩)

theorem ends_meetProps {merged : Property Ty} {ps : List (Property Ty)}
    (hmeet : ∀ s t, P s → P t → Ends (r.intersect [s, t]) (r'.intersect [s, t]) P)
    (hm : P merged.type) (hps : ∀ p ∈ ps, P p.type) :
    Ends (meetProps r merged ps) (meetProps r' merged ps) fun p => P p.type := by
  induction ps generalizing merged with
  | nil => exact .pure hm
  | cons p ps ih =>
    rw [meetProps, meetProps]
    refine .bind (hmeet _ _ hm (hps p (by simp))) fun s hs => ih hs fun q hq => hps q (by simp [hq])

/-- Two types are put together, and `P` holds of the result. -/
theorem ends_into {s : Ty} (hs : P s) :
    Ends (pure (Fusion.into s)) (pure (Fusion.into s)) fun fusion => ∀ t, fusion = .into t → P t := by
  refine .pure fun t ht => ?_
  obtain rfl := Fusion.into.inj ht
  exact hs

/-- The names of merged properties are those of the left side. -/
theorem ends_mergedProps {propsA propsB : List (Property Ty)} (hA : ∀ pa ∈ propsA, P pa.type)
    (hmeet : ∀ pa ∈ propsA, ∀ pb ∈ propsB,
      Ends (r.intersect [pa.type, pb.type]) (r'.intersect [pa.type, pb.type]) P) :
    Ends (mergedProps r propsB propsA) (mergedProps r' propsB propsA)
      fun found => ∀ ps ∈ found, ∀ p ∈ ps, P p.type ∧ p.name ∈ propsA.map (·.name) := by
  induction propsA with
  | nil => exact .pure (by simp)
  | cons pa rest ih =>
    replace ih := ih (fun p hp => hA p (by simp [hp])) fun p hp => hmeet p (by simp [hp])
    -- whatever goes on with the merged rest by putting the property before it
    have hcons (p : Property Ty) (hp : P p.type) (hname : p.name = pa.name)
        {f : Option (List (Property Ty)) → Stalling (Option (List (Property Ty)))}
        {f' : Option (List (Property Ty)) → InUniverse (Option (List (Property Ty)))}
        (hf : f none = pure none ∧ ∀ ps, f (some ps) = pure (some (p :: ps)))
        (hf' : f' none = pure none ∧ ∀ ps, f' (some ps) = pure (some (p :: ps))) :
        Ends (mergedProps r propsB rest >>= f) (mergedProps r' propsB rest >>= f')
          fun found => ∀ ps ∈ found, ∀ q ∈ ps, P q.type ∧ q.name ∈ (pa :: rest).map (·.name) := by
      refine .bind ih fun found hfound => ?_
      cases found with
      | none =>
        rw [hf.1, hf'.1]
        exact .pure (by simp)
      | some ps =>
        rw [hf.2, hf'.2]
        refine .some (List.forall_mem_cons.2 ⟨⟨hp, by simp [hname]⟩, fun q hq => ?_⟩)
        exact ⟨(hfound ps rfl q hq).1, List.mem_cons_of_mem _ (hfound ps rfl q hq).2⟩
    rw [mergedProps, mergedProps]
    cases hfind : findProp? propsB pa.name with
    | none => exact hcons pa (hA pa (by simp)) rfl ⟨rfl, fun _ => rfl⟩ ⟨rfl, fun _ => rfl⟩
    | some pb =>
      refine .bind (hmeet pa (by simp) pb (findProp?_some hfind).1) fun met hmet => ?_
      let p : Property Ty :=
        { name := pa.name
          type := met
          optional := pa.optional && pb.optional
          readonly := pa.readonly && pb.readonly }
      exact .ite (.pure (by simp)) (hcons p hmet rfl ⟨rfl, fun _ => rfl⟩ ⟨rfl, fun _ => rfl⟩)

variable (hcombine : ∀ a b, P a → P b →
  Ends (combine r a b) (combine r' a b) fun fusion => ∀ t, fusion = .into t → P t)

include hcombine

theorem ends_fuseWith {before rest : List Ty} (ha : P a) (hbefore : ∀ t ∈ before, P t)
    (hrest : ∀ t ∈ rest, P t) :
    Ends (fuseWith r a before rest) (fuseWith r' a before rest)
      fun sweep => ∀ ms, sweep = .fused ms → ∀ m ∈ ms, P m := by
  induction rest generalizing before with
  | nil => exact .pure (by simp)
  | cons b rest ih =>
    rw [List.forall_mem_cons] at hrest
    rw [fuseWith, fuseWith]
    refine .bind (hcombine a b ha hrest.1) fun fusion hfusion => ?_
    cases fusion with
    | apart => exact ih (by simpa [or_imp, forall_and] using ⟨hbefore, hrest.1⟩) hrest.2
    | empty => exact .pure (by simp)
    | into t =>
      refine .pure fun ms hms => ?_
      obtain rfl := Sweep.fused.inj hms
      simpa [or_imp, forall_and] using ⟨hfusion t rfl, hbefore, hrest.2⟩

theorem ends_fuseFirst {before members : List Ty} (hbefore : ∀ t ∈ before, P t)
    (hmembers : ∀ t ∈ members, P t) :
    Ends (fuseFirst r before members) (fuseFirst r' before members)
      fun sweep => ∀ ms, sweep = .fused ms → ∀ m ∈ ms, P m := by
  induction members generalizing before with
  | nil => exact .pure (by simp)
  | cons a rest ih =>
    rw [List.forall_mem_cons] at hmembers
    rw [fuseFirst, fuseFirst]
    refine .bind (ends_fuseWith hcombine hmembers.1 (by simp) hmembers.2) fun sweep hsweep => ?_
    cases sweep with
    | stable => exact ih (by simpa [or_imp, forall_and] using ⟨hbefore, hmembers.1⟩) hmembers.2
    | empty => exact .pure (by simp)
    | fused members =>
      refine .pure fun ms hms => ?_
      obtain rfl := Sweep.fused.inj hms
      simpa [or_imp, forall_and] using ⟨hbefore, hsweep members rfl⟩

theorem ends_fuseAll {rounds : Nat} {members : List Ty} (hmembers : ∀ t ∈ members, P t) :
    Ends (fuseAll r rounds members) (fuseAll r' rounds members) fun found => ∀ ms ∈ found, ∀ m ∈ ms, P m := by
  induction rounds generalizing members with
  | zero => exact .pure (by simpa using hmembers)
  | succ rounds ih =>
    rw [fuseAll, fuseAll]
    refine .bind (ends_fuseFirst hcombine (by simp) hmembers) fun sweep hsweep => ?_
    cases sweep with
    | stable => exact .pure (by simpa using hmembers)
    | empty => exact .pure (by simp)
    | fused ms => exact ih (hsweep ms rfl)

end Loops

theorem confined_left (ha : a.Slender n) (hl : a.layer = 1) (hs : s ∈ a.parts) :
    s.Confined n (max a.depth b.depth - 1) :=
  .of_bounded (ha.named.part hs) (below_left ha.shallow hl hs)

theorem confined_right (hb : b.Slender n) (hl : b.layer = 1) (hs : s ∈ b.parts) :
    s.Confined n (max a.depth b.depth - 1) :=
  .of_bounded (hb.named.part hs) (below_right hb.shallow hl hs)

theorem argType_confined {p : Param Ty} (hp : p.type.Confined n d) : (argType p).Confined n d := by
  refine .of_bounded ?_ (argType_bounded hp.bounded)
  rw [argType.eq_def]
  split
  · rename_i elems rest htype
    rw [htype] at hp
    exact hp.named.part (by simp [parts])
  · exact hp.named

namespace Ending

/-! ## Subtyping -/

/-- Shapes, tuples and functions are compared by their parts, a layer below. -/
theorem subtype_below (he : Ending n k r r') (hk : subtypeRank n a b ≤ k)
    (hs : s.Confined n (max a.depth b.depth - 1)) (ht : t.Confined n (max a.depth b.depth - 1))
    (hd : 1 ≤ max a.depth b.depth) : Ends (r.subtype s t) (r'.subtype s t) fun _ => True :=
  he.subtype hs.toSlender ht.toSlender (Nat.lt_of_lt_of_le (subtypeRank_below hs.bounded ht.bounded hd) hk)

theorem disjoint_below (he : Ending n k r r') (hk : disjointRank n a b ≤ k)
    (hs : s.Confined n (max a.depth b.depth - 1)) (ht : t.Confined n (max a.depth b.depth - 1))
    (hd : 1 ≤ max a.depth b.depth) : Ends (r.disjoint s t) (r'.disjoint s t) fun _ => True :=
  he.disjoint hs.toSlender ht.toSlender (Nat.lt_of_lt_of_le (disjointRank_below hs.bounded ht.bounded hd) hk)

theorem objectSubtype (he : Ending n k r r') {tag : String} {props : List (Property Ty)} (ha : a.Slender n)
    (hb : (Ty.object tag props).Slender n) (hk : subtypeRank n a (.object tag props) ≤ k) :
    Ends (objectSubtype r a tag props) (objectSubtype r' a tag props) fun _ => True := by
  have hd : 1 ≤ (Ty.object tag props).depth := one_le_depth rfl
  have hprops : Ends (propsSubtype r a props) (propsSubtype r' a props) fun _ => True := by
    refine ends_propsSubtype (fun name => he.property name ha ?_) fun pb hpb s hs => ?_
    · exact Nat.lt_of_lt_of_le (propertyRank_lt_subtypeRank a tag props) hk
    · exact he.subtype_below hk (hs.mono (by omega)) (confined_right hb rfl (List.mem_map_of_mem hpb)) (by omega)
  cases a with
  | null | undefined => exact .pure trivial
  | _ => exact .ite hprops (.bind .hierarchy fun _ _ => .ite hprops (.pure trivial))

theorem plainSubtype (he : Ending n k r r') (ha : a.Slender n) (hb : b.Slender n)
    (hk : subtypeRank n a b ≤ k) :
    Ends (plainSubtype r a b) (plainSubtype r' a b) fun _ => True := by
  rw [Rules.plainSubtype.eq_def, Rules.plainSubtype.eq_def]
  split
  · exact he.objectSubtype ha hb hk
  · rename_i elemsA restA elemsB restB
    have hd := one_le_depth (a := .tuple elemsA restA) rfl
    exact ends_elemsSubtype fun s hs t ht =>
      he.subtype_below hk (confined_left ha rfl hs) (confined_right hb rfl ht) (by omega)
  · rename_i paramsA retA paramsB retB
    have hd := one_le_depth (a := .function paramsA retA) rfl
    have hparams : Ends (paramsSubtype r paramsA paramsB) (paramsSubtype r' paramsA paramsB) fun _ => True := by
      refine ends_paramsSubtype fun pa hpa pb hpb => ?_
      refine he.subtype_below hk (argType_confined (confined_right hb rfl ?_))
        (argType_confined (confined_left ha rfl ?_)) (by omega)
      · exact List.mem_append_left _ (List.mem_map_of_mem hpb)
      · exact List.mem_append_left _ (List.mem_map_of_mem hpa)
    have hret : Ends (r.subtype retA retB) (r'.subtype retA retB) fun _ => True :=
      he.subtype_below hk (confined_left ha rfl (by simp [parts])) (confined_right hb rfl (by simp [parts]))
        (by omega)
    exact .ite (.pure trivial) (.bind hparams fun _ _ => .ite (.ite (.pure trivial) hret) (.pure trivial))
  all_goals exact .pure trivial

/-- The parts that a question opens on its left side. -/
theorem subtype_left (he : Ending n k r r') (ha : a.Slender n) (hb : b.Slender n)
    (hk : subtypeRank n a b ≤ k) (ho : a.opens = true) (hs : s ∈ a.parts) :
    Ends (r.subtype s b) (r'.subtype s b) fun _ => True :=
  he.subtype (ha.part hs) hb (Nat.lt_of_lt_of_le (subtypeRank_left ho hs) hk)

/-- The parts that a question opens on its right side. -/
theorem subtype_right (he : Ending n k r r') (ha : a.Slender n) (hb : b.Slender n)
    (hk : subtypeRank n a b ≤ k) (ho : b.opens = true) (ht : t ∈ b.parts) :
    Ends (r.subtype a t) (r'.subtype a t) fun _ => True :=
  he.subtype ha (hb.part ht) (Nat.lt_of_lt_of_le (subtypeRank_right ho ht) hk)

theorem rightSubtype (he : Ending n k r r') (ha : a.Slender n) (hb : b.Slender n)
    (hk : subtypeRank n a b ≤ k) :
    Ends (rightSubtype r a b) (rightSubtype r' a b) fun _ => True := by
  have hleft (ho : a.opens = true) :
      Ends (a.parts.anyM fun s => r.subtype s b) (a.parts.anyM fun s => r'.subtype s b) fun _ => True :=
    .anyM fun s hs => he.subtype_left ha hb hk ho hs
  have hright (ho : b.opens = true) :
      Ends (b.parts.anyM fun t => r.subtype a t) (b.parts.anyM fun t => r'.subtype a t) fun _ => True :=
    .anyM fun t ht => he.subtype_right ha hb hk ho ht
  rw [Rules.rightSubtype.eq_def, Rules.rightSubtype.eq_def]
  split
  · exact .bind (hright rfl) fun _ _ => .ite (.pure trivial) (hleft rfl)
  · exact hright rfl
  · exact .bind (hleft rfl) fun _ _ => .ite (.pure trivial) (he.objectSubtype ha hb hk)
  · exact hleft rfl
  · exact he.plainSubtype ha hb hk

theorem varSubtype (he : Ending n k r r') {v : String} {bound : Option Ty}
    (ha : (Ty.var v bound).Slender n) (hb : b.Slender n) (hk : subtypeRank n (.var v bound) b ≤ k) :
    Ends (varSubtype r (.var v bound) bound b) (varSubtype r' (.var v bound) bound b) fun _ => True := by
  have hright {bs : List Ty} (hunion : b = .union bs) :
      Ends (bs.anyM fun t => r.subtype (.var v bound) t) (bs.anyM fun t => r'.subtype (.var v bound) t)
        fun _ => True := by
    subst hunion
    exact .anyM fun t ht => he.subtype_right ha hb hk rfl ht
  rw [Rules.varSubtype.eq_def, Rules.varSubtype.eq_def]
  cases bound with
  | none =>
    cases b with
    | union bs => exact .bind (hright rfl) fun _ _ => .ite (.pure trivial) (.pure trivial)
    | _ => exact .pure trivial
  | some c =>
    have hleft : Ends (r.subtype c b) (r'.subtype c b) fun _ => True :=
      he.subtype_left ha hb hk rfl (by simp [parts])
    cases b with
    | union bs => exact .bind (hright rfl) fun _ _ => .ite (.pure trivial) hleft
    | _ => exact hleft

theorem subtypeRule (he : Ending n k r r') (ha : a.Slender n) (hb : b.Slender n)
    (hk : subtypeRank n a b ≤ k) : Ends (subtypeRule r a b) (subtypeRule r' a b) fun _ => True := by
  rw [Rules.subtypeRule.eq_def, Rules.subtypeRule.eq_def]
  split
  · exact .pure trivial
  · exact .pure trivial
  · exact .pure trivial
  · exact .pure trivial
  · exact .allM fun s hs => he.subtype_left ha hb hk rfl hs
  · exact .allM fun t ht => he.subtype_right ha hb hk rfl ht
  · exact he.varSubtype ha hb hk
  · exact he.rightSubtype ha hb hk

theorem subtypeStep (he : Ending n k r r') (ha : a.Slender n) (hb : b.Slender n)
    (hk : subtypeRank n a b ≤ k) : Ends (subtypeStep r a b) (subtypeStep r' a b) fun _ => True := by
  refine .ite (.pure trivial) (.bind (.answered? _) fun remembered _ => ?_)
  cases remembered with
  | some answer => exact .pure trivial
  | none =>
    exact .bind (he.subtypeRule ha hb hk) fun _ _ => .bind (.remember _ _) fun _ _ => .pure trivial

/-! ## Disjointness -/

theorem partsDisjoint (he : Ending n k r r') (ha : a.Slender n) (hb : b.Slender n)
    (hk : disjointRank n a b ≤ k) : Ends (partsDisjoint r a b) (partsDisjoint r' a b) fun _ => True := by
  rw [Rules.partsDisjoint.eq_def, Rules.partsDisjoint.eq_def]
  split
  · exact .pure trivial
  · rename_i tagA propsA tagB propsB
    have hd := one_le_depth (a := .object tagA propsA) rfl
    refine .anyM fun pa hpa => ?_
    cases hfind : findProp? propsB pa.name with
    | none => exact .pure trivial
    | some pb =>
      exact .ite (.pure trivial) (he.disjoint_below hk (confined_left ha rfl (List.mem_map_of_mem hpa))
        (confined_right hb rfl (List.mem_map_of_mem (findProp?_some hfind).1)) (by omega))
  · rename_i elemsA restA elemsB restB
    have hd := one_le_depth (a := .tuple elemsA restA) rfl
    refine .ite (.pure trivial) (ends_elemsDisjoint fun ea hea eb heb => ?_)
    refine he.disjoint_below hk (confined_left ha rfl ?_) (confined_right hb rfl ?_) (by omega)
    · exact List.mem_append_left _ (List.mem_map_of_mem hea)
    · exact List.mem_append_left _ (List.mem_map_of_mem heb)
  · exact .pure trivial

theorem disjointStep (he : Ending n k r r') (ha : a.Slender n) (hb : b.Slender n)
    (hk : disjointRank n a b ≤ k) : Ends (disjointStep r a b) (disjointStep r' a b) fun _ => True := by
  have hrank := subtypeRank_lt_disjointRank n a b
  have hsub := he.subtype ha hb (Nat.lt_of_lt_of_le hrank.1 hk)
  have hsub' := he.subtype hb ha (Nat.lt_of_lt_of_le hrank.2 hk)
  have hmembers (hu : (a.isUnion || b.isUnion) = true) :
      Ends (a.members.allM fun s => b.members.allM fun t => r.disjoint s t)
        (a.members.allM fun s => b.members.allM fun t => r'.disjoint s t) fun _ => True :=
    .allM fun s hs => .allM fun t ht => he.disjoint (ha.member hs) (hb.member ht)
      (Nat.lt_of_lt_of_le (disjointRank_members ha.shallow hb.shallow hu hs ht) hk)
  have hparts := he.partsDisjoint ha hb hk
  refine .ite (.pure trivial) (.ite (.pure trivial) ?_)
  split
  · exact hmembers ‹_›
  · exact .bind hsub fun _ _ => .ite (.pure trivial)
      (.bind hsub' fun _ _ => .ite (.pure trivial) (.ite (.pure trivial) hparts))

/-! ## Properties -/

/-- Two types are met within their bounds. -/
theorem meet (he : Ending n k r r') (hs : s.Confined n d) (ht : t.Confined n d)
    (hk : intersectRank n [s, t] < k) :
    Ends (r.intersect [s, t]) (r'.intersect [s, t]) (Confined n d) := by
  refine (he.intersect (by simpa using ⟨hs.toSlender, ht.toSlender⟩) hk).imp fun met hmet => hmet.mono ?_
  exact greatest_le (by simpa using ⟨hs.depth_le, ht.depth_le⟩)

theorem propertyStep (he : Ending n k r r') (name : Text) (ht : t.Slender n)
    (hk : propertyRank n t ≤ k) :
    Ends (propertyStep r t name) (propertyStep r' t name)
      fun found => ∀ p ∈ found, p.type.Confined n (t.depth - 1) := by
  -- asking a part ranks below asking the type, if the type hands the question on
  have hpart (ho : t.opens = true) (s) (hs : s ∈ t.parts) :
      Ends (r.propertyOf s name) (r'.propertyOf s name)
        fun found => ∀ p ∈ found, p.type.Confined n (t.depth - 1) := by
    have hdepth := depth_part_le hs
    refine (he.property name (ht.part hs) (Nat.lt_of_lt_of_le (propertyRank_part ho hs) hk)).imp ?_
    exact fun found hfound p hp => (hfound p hp).mono (by omega)
  have hnumber : Ty.number.Confined n (t.depth - 1) := .of_atom (by simp [atoms])
  cases t with
  | object tag props =>
    exact .pure fun p hp => ht.confined.part (List.mem_map_of_mem (findProp?_some hp).1)
  | tuple elems rest | string =>
    refine .pure fun p hp => ?_
    obtain ⟨-, rfl⟩ : name = lengthName ∧ _ = p := by simpa using hp
    exact hnumber
  | literal l =>
    cases l with
    | text value =>
      have hliteral := Ends.literal (n := n) (d := (Ty.literal (.text value)).depth - 1) (lengthLiteral value)
      exact .ite (.bind hliteral fun s hs => .some hs) (.pure (by simp))
    | _ => exact .pure (by simp)
  | var v bound =>
    cases bound with
    | none => exact .pure (by simp)
    | some bound => exact hpart rfl bound (by simp [parts])
  | inter ms =>
    refine .bind (ends_foundProps fun m hm => hpart rfl m hm) fun found hfound => ?_
    cases found with
    | nil => exact .pure (by simp)
    | cons p ps =>
      have hmeet (s t : Ty) (hs : s.Confined n ((Ty.inter ms).depth - 1))
          (ht : t.Confined n ((Ty.inter ms).depth - 1)) :=
        he.meet hs ht (Nat.lt_of_lt_of_le (intersectRank_lt_propertyRank hs.bounded ht.bounded) hk)
      exact .bind (ends_meetProps hmeet (hfound p (by simp)) fun q hq => hfound q (by simp [hq]))
        fun q hq => .some hq
  | union ms =>
    refine .bind (ends_sharedProps fun m hm => hpart rfl m hm) fun found hfound => ?_
    cases found with
    | none => exact .pure (by simp)
    | some ps =>
      have htypes : ∀ s ∈ ps.map (·.type), s.Confined n ((Ty.union ms).depth - 1) := by simpa using hfound ps rfl
      exact .bind (.union htypes) fun s hs => .some hs
  | _ => exact .pure (by simp)

/-! ## Intersections -/

/-- Shapes merge into a shape within the bounds of both. -/
theorem mergeObjects (he : Ending n k r r') (hk : layerSteps n * d ≤ k) (ha : a.Lone n d) (hb : b.Lone n d) :
    Ends (mergeObjects r a b) (mergeObjects r' a b) fun fusion => ∀ t, fusion = .into t → t.Lone n d := by
  rw [Rules.mergeObjects.eq_def, Rules.mergeObjects.eq_def]
  split
  · rename_i tagA propsA tagB propsB
    have hA (p) (hp : p ∈ propsA) : p.type.Confined n (d - 1) := ha.part (List.mem_map_of_mem hp)
    have hB (p) (hp : p ∈ propsB) : p.type.Confined n (d - 1) := hb.part (List.mem_map_of_mem hp)
    have hmeet (pa) (hpa : pa ∈ propsA) (pb) (hpb : pb ∈ propsB) :=
      he.meet (hA pa hpa) (hB pb hpb) (Nat.lt_of_lt_of_le (intersectRank_lt_of_plain ha.bounds hb.bounds
        (List.mem_map_of_mem hpa) (List.mem_map_of_mem hpb)) hk)
    refine .bind .hierarchy fun h _ => ?_
    cases htag : mergedTag h tagA tagB with
    | none => exact .pure (by simp)
    | some tag =>
      refine .bind (ends_mergedProps hA hmeet) fun found hfound => ?_
      cases found with
      | none => exact .pure (by simp)
      | some ps =>
        obtain ⟨htagA, hnamesA⟩ := ha.named.own
        obtain ⟨htagB, hnamesB⟩ := hb.named.own
        have htag := mergedTag_isWord htagA htagB htag
        have hprops (p) (hp : p ∈ TypeStore.sortProps (ps ++ propsB.filter fun pb =>
            (findProp? propsA pb.name).isNone)) : p.name.IsWord ∧ p.type.Confined n (d - 1) := by
          rcases List.mem_append.1 (TypeStore.mem_of_mem_sortProps hp) with hp | hp
          · obtain ⟨htype, hname⟩ := hfound ps rfl p hp
            obtain ⟨pa, hpa, hname⟩ := List.mem_map.1 hname
            exact ⟨hname ▸ hnamesA pa hpa, htype⟩
          · have hp := (List.mem_filter.1 hp).1
            exact ⟨hnamesB p hp, hB p hp⟩
        exact .bind (.intern_lone (.object ha.bounded.layer_le htag hprops)) fun s hs => ends_into hs
  · exact .pure (by simp)

theorem combine (he : Ending n k r r') (hk : layerSteps n * d + (2 * n + 7) ≤ k) (ha : a.Lone n d)
    (hb : b.Lone n d) :
    Ends (combine r a b) (combine r' a b) fun fusion => ∀ t, fusion = .into t → t.Lone n d := by
  have hrank : disjointRank n a b < k := Nat.lt_of_lt_of_le (disjointRank_lt_of_plain ha.bounds hb.bounds) hk
  have hsub := subtypeRank_lt_disjointRank n a b
  have hleft := he.subtype ha.toSlender hb.toSlender (Nat.lt_trans hsub.1 hrank)
  have hright := he.subtype hb.toSlender ha.toSlender (Nat.lt_trans hsub.2 hrank)
  refine .bind hleft fun _ _ => .ite (ends_into ha) ?_
  refine .bind hright fun _ _ => .ite (ends_into hb) ?_
  refine .bind (he.disjoint ha.toSlender hb.toSlender hrank) fun _ _ => .ite (.pure (by simp)) ?_
  exact he.mergeObjects (by omega) ha hb

theorem intersectStep (he : Ending n k r r') {ts : List Ty} (hts : ∀ t ∈ ts, t.Slender n)
    (hk : intersectRank n ts ≤ k) :
    Ends (intersectStep r ts) (intersectStep r' ts) (Confined n (greatest depth ts)) := by
  rw [Rules.intersectStep, Rules.intersectStep]
  cases hflat : conjunctsAll ts with
  | none => exact .pure (.of_atom (by simp [atoms]))
  | some flat =>
    have hmem (x) (hx : x ∈ dedup flat) : x.Confined n (greatest depth ts) ∧ x.isInter = false := by
      have hparted := parted_of_conjunctsAll hflat
      obtain ⟨t, ht, hconj⟩ := (hparted.2 x).1 (mem_of_mem_dedup hx)
      have ht : t.Confined n (greatest depth ts) := (hts t ht).confined.mono (le_greatest ht)
      exact ⟨hconj.of_inter_closed (fun ms hms m hm => hms.part hm) ht, hconj.isInter⟩
    cases hfirst : firstUnion? (dedup flat) with
    | some found =>
      obtain ⟨us, others⟩ := found
      obtain ⟨before, after, hspread, rfl⟩ := firstUnion?_some hfirst
      simp only [hfirst]
      have hmet (x) (hx : x ∈ us) : Ends (r.intersect (x :: (before ++ after)))
          (r'.intersect (x :: (before ++ after))) (Confined n (greatest depth ts)) := by
        have hconfined : ∀ t ∈ x :: (before ++ after), t.Confined n (greatest depth ts) := by
          rw [hspread] at hmem
          refine List.forall_mem_cons.2 ⟨(hmem (.union us) (by simp)).1.part hx, fun t ht => (hmem t ?_).1⟩
          rcases List.mem_append.1 ht with ht | ht <;> simp [ht]
        have hrank := intersectRank_spread (fun t ht => (hts t ht).shallow) hflat hspread hx
        refine (he.intersect (fun t ht => (hconfined t ht).toSlender) (Nat.lt_of_lt_of_le hrank hk)).imp ?_
        exact fun met hmet => hmet.mono (greatest_le fun t ht => (hconfined t ht).depth_le)
      exact .bind (.mapM hmet) fun mets hmets => .union hmets
    | none =>
      simp only [hfirst]
      refine .bind (ends_fuseAll (P := Lone n (greatest depth ts)) (fun a b ha hb => he.combine ?_ ha hb) ?_)
        fun found hfound => ?_
      · simp only [intersectRank] at hk
        omega
      · exact fun x hx => ⟨(hmem x hx).1, firstUnion?_none hfirst hx, (hmem x hx).2⟩
      · cases found with
        | none => exact .pure (.of_atom (by simp [atoms]))
        | some members =>
          have hlone (m) (hm : m ∈ members) := hfound members rfl m hm
          rcases members with _ | ⟨m, _ | ⟨m', ms⟩⟩
          · exact .pure (.of_atom (by simp [atoms]))
          · exact .pure (hlone m (by simp)).toConfined
          · exact .intern_confined (.inter fun m hm => hlone m (mem_sortByKey.1 hm))

/-- Rules that ask answers of this kind are of this kind on one rank more. -/
theorem next (he : Ending n k r r') : Ending n (k + 1) r.next r'.next where
  subtype ha hb hk := he.subtypeStep ha hb (by omega)
  disjoint ha hb hk := he.disjointStep ha hb (by omega)
  property name ht hk := he.propertyStep name ht (by omega)
  intersect hts hk := he.intersectStep hts (by omega)

end Ending

/-! ## The public operations -/

/-- Calls nested deeper than the rank of a question make no difference, whatever they do. -/
theorem ending_iterate (n k : Nat) (r : Rules Stalling) (r' : Rules InUniverse) :
    Ending n k (next^[k] r) (next^[k] r') := by
  induction k with
  | zero => exact ⟨by simp, by simp, by simp, by simp⟩
  | succ k ih =>
    rw [Function.iterate_succ_apply', Function.iterate_succ_apply']
    exact ih.next

theorem upTo_add {m : Type → Type} [TypeStore m] (k j : Nat) :
    (upTo (k + j) : Rules m) = next^[k] (upTo j) := by
  induction k with
  | zero => rw [Nat.zero_add, Function.iterate_zero_apply]
  | succ k ih =>
    rw [Function.iterate_succ_apply', ← ih, Nat.add_right_comm]
    rfl

/-- The rules of the public operations, seen as rules with fewer calls that are nested. -/
theorem ending_answers (ts : List Ty) :
    Ending (sizeAll ts) (nestingBound ts) (nested (nestingBound ts)) (upTo (stepBound ts)) := by
  obtain ⟨j, hj⟩ := Nat.exists_eq_add_of_le (nestingBound_le_stepBound ts)
  rw [hj, upTo_add]
  exact ending_iterate _ _ _ _

end FlowTyping.Rules

namespace FlowTyping.Universe

open Rules Ty

variable {u : Universe}

/-- **Questions are bounded by nesting depth.** Intersections and unions go no deeper than their arguments,
and properties less deep than the type they are of. And each of the four questions comes to an end: calls
nested deeper than `nestingBound` may stall, and still it is answered, with the same answer and the same
types kept. -/
theorem nesting_bounded (hu : u.WellNamed) :
    (∀ ts : List Ty, (∀ t ∈ ts, t.Named) →
      ((TypeStore.intersect ts : InUniverse Ty).run u).1.depth ≤ greatest depth ts ∧
        ((TypeStore.union ts : InUniverse Ty).run u).1.depth ≤ greatest depth ts ∧
        ((nested (nestingBound ts)).intersect ts).run.run u =
          Prod.map some id ((TypeStore.intersect ts : InUniverse Ty).run u)) ∧
    (∀ (t : Ty) (name : Text), t.Named →
      (∀ p ∈ ((TypeStore.propertyOf t name : InUniverse _).run u).1, p.type.depth ≤ t.depth - 1) ∧
        ((nested (nestingBound [t])).propertyOf t name).run.run u =
          Prod.map some id ((TypeStore.propertyOf t name : InUniverse _).run u)) ∧
    ∀ a b : Ty, a.Named → b.Named →
      ((nested (nestingBound [a, b])).subtype a b).run.run u =
          Prod.map some id ((TypeStore.subtype a b : InUniverse Bool).run u) ∧
        ((nested (nestingBound [a, b])).disjoint a b).run.run u =
          Prod.map some id ((TypeStore.disjoint a b : InUniverse Bool).run u) := by
  have hslender {ts : List Ty} (hts : ∀ t ∈ ts, t.Named) (t) (ht : t ∈ ts) : t.Slender (sizeAll ts) :=
    ⟨hts t ht, shallow_of_mem ht⟩
  refine ⟨fun ts hts => ?_, fun t name ht => ?_, fun a b ha hb => ?_⟩
  · have hconfined (t) (ht : t ∈ ts) : t.Confined (sizeAll ts) (greatest depth ts) :=
      (hslender hts t ht).confined.mono (le_greatest ht)
    obtain ⟨hrun, -, hmet, -⟩ :=
      ((ending_answers ts).intersect (hslender hts) (intersectRank_lt_nestingBound ts)).bounded u hu
    exact ⟨hmet.depth_le, (Ends.union hconfined u hu).2.2.1.depth_le, hrun⟩
  · obtain ⟨hrun, -, hfound, -⟩ := ((ending_answers [t]).property name (hslender (by simpa using ht) t (by simp))
      (propertyRank_lt_nestingBound t)).bounded u hu
    exact ⟨fun p hp => (hfound p hp).depth_le, hrun⟩
  · have hpair : ∀ t ∈ [a, b], t.Named := by simpa using ⟨ha, hb⟩
    have hrank := disjointRank_lt_nestingBound a b
    have hsub := Nat.lt_trans (subtypeRank_lt_disjointRank _ a b).1 hrank
    have ha := hslender hpair a (by simp)
    have hb := hslender hpair b (by simp)
    exact ⟨(((ending_answers [a, b]).subtype ha hb hsub).bounded u hu).1,
      (((ending_answers [a, b]).disjoint ha hb hrank).bounded u hu).1⟩

/-- A shape that holds a place with the given coordinates. -/
def located (coordinates : List Text) : Ty :=
  .object "" [{ name := "at", type := .object "" (coordinates.map fun name => { name, type := .number }) }]

theorem located_confined (coordinates : List Text) (hwords : ∀ name ∈ coordinates, name.IsWord) :
    (located coordinates).Confined 0 2 := by
  have hplace : (Ty.object "" (coordinates.map fun name => { name, type := .number })).Lone 0 1 := by
    refine .object (Nat.le_refl 1) (by decide) fun p hp => ?_
    obtain ⟨name, hname, rfl⟩ := List.mem_map.1 hp
    exact ⟨hwords name hname, .of_atom (by simp [atoms])⟩
  have hat : Text.IsWord "at" := by decide
  exact (Lone.object (by omega) (by decide) (by simpa using ⟨hat, hplace.toConfined⟩)).toConfined

/-- Both of two places: the places meet in one with all coordinates, a type that neither side has. -/
theorem nesting_bounded_located : (Universe.new 1).WellNamed ∧
    (∀ t ∈ [located ["x"], located ["y"]], t.Named) ∧
    ((TypeStore.intersect [located ["x"], located ["y"]] : InUniverse Ty).run (.new 1)).1.depth ≤ 2 ∧
    ((nested (nestingBound [.inter [located ["x"], located ["y"]], located ["x", "y"]])).subtype
        (.inter [located ["x"], located ["y"]]) (located ["x", "y"])).run.run (.new 1) =
      Prod.map some id ((TypeStore.subtype (.inter [located ["x"], located ["y"]]) (located ["x", "y"]) :
        InUniverse Bool).run (.new 1)) := by
  have hu : (Universe.new 1).WellNamed := (sound_new 1).wellNamed
  have hx := located_confined ["x"] (by decide)
  have hy := located_confined ["y"] (by decide)
  have hxy := located_confined ["x", "y"] (by decide)
  have hts : ∀ t ∈ [located ["x"], located ["y"]], t.Named := by simpa using ⟨hx.named, hy.named⟩
  have hboth : (Ty.inter [located ["x"], located ["y"]]).Named := .intro trivial hts
  obtain ⟨hmet, -, hasked⟩ := nesting_bounded hu
  refine ⟨hu, hts, Nat.le_trans (hmet _ hts).1 ?_, (hasked _ _ hboth hxy.named).1⟩
  exact greatest_le (by simpa using ⟨hx.depth_le, hy.depth_le⟩)

-- one nested call is too few here: the shape is asked for its properties, and that stalls
example : (((nested 1).subtype (located ["x"]) (located ["y"])).run.run (.new 0)).1 = none := by rfl

end FlowTyping.Universe
