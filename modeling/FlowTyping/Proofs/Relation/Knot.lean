import FlowTyping.Proofs.Relation.Ranks
import FlowTyping.Proofs.Store.Ideal

/-!
# The bound on nested steps is never reached

Questions about types are answered with a bound on nested steps. This module shows that the bound is
large enough for every question, so that it can be forgotten: each of the four public operations is
its own rule, with the public operations as answers to the smaller questions.

* **`Rules.Agree`** — two sets of answers that agree on all questions of smaller rank, and
  **`Rules.Agree.next`**, by which their rules agree on rank one more.
* **`Rules.nestingBound`** — a bound on all ranks that grows with the depth of the types, below the bound on
  steps (**`Rules.nestingBound_le_stepBound`**).
* **`Hierarchy.subtype_knot`, …** — the public operations solve their own equations.
-/

namespace FlowTyping.Rules

open Ty

/-! ## Rules that ask the same questions -/

section Congruence

variable {h k : Hierarchy} {r : Rules (Ideal h)} {r' : Rules (Ideal k)}

theorem any_congr_of_mem {α : Type} {p q : α → Bool} {xs : List α} (hpq : ∀ x ∈ xs, p x = q x) :
    xs.any p = xs.any q := by
  rw [Bool.eq_iff_iff, List.any_eq_true, List.any_eq_true]
  exact exists_congr fun x => and_congr_right fun hx => by rw [hpq x hx]

theorem all_congr_of_mem {α : Type} {p q : α → Bool} {xs : List α} (hpq : ∀ x ∈ xs, p x = q x) :
    xs.all p = xs.all q := by
  rw [Bool.eq_iff_iff, List.all_eq_true, List.all_eq_true]
  exact forall₂_congr fun x hx => by rw [hpq x hx]

theorem propsSubtype_congr {props : List (Property Ty)}
    (hprop : ∀ name, (r.propertyOf a name).run = (r'.propertyOf a name).run)
    (hsub : ∀ pb ∈ props, ∀ pa, (r.propertyOf a pb.name).run = some pa →
      (r.subtype pa.type pb.type).run = (r'.subtype pa.type pb.type).run) :
    (propsSubtype r a props).run = (propsSubtype r' a props).run := by
  induction props with
  | nil => rfl
  | cons pb rest ih =>
    have hih := ih fun p hp => hsub p (by simp [hp])
    simp only [propsSubtype, Ideal.run_bind, ← hprop]
    cases hp : (r.propertyOf a pb.name).run with
    | none => simp [hih]
    | some pa => simp [hih, hsub pb (by simp) pa hp]

theorem elemsSubtype_congr {restA restB : Option Ty} {elemsA elemsB : List (Elem Ty)}
    (hsub : ∀ s ∈ elemsA.map (·.type) ++ restA.toList, ∀ t ∈ elemsB.map (·.type) ++ restB.toList,
      (r.subtype s t).run = (r'.subtype s t).run) :
    (elemsSubtype r restA restB elemsA elemsB).run =
      (elemsSubtype r' restA restB elemsA elemsB).run := by
  induction elemsA generalizing elemsB with
  | nil =>
    induction elemsB with
    | nil =>
      cases restA with
      | none => simp [elemsSubtype]
      | some ra =>
        cases restB with
        | none => simp [elemsSubtype]
        | some rb => simpa [elemsSubtype] using hsub ra (by simp) rb (by simp)
    | cons eb bs ih =>
      have hih := ih fun s hs t ht => hsub s hs t (List.mem_cons_of_mem _ ht)
      cases restA with
      | none => simp [elemsSubtype, hih]
      | some ra => simp [elemsSubtype, hih, hsub ra (by simp) eb.type (by simp)]
  | cons ea as ih =>
    cases elemsB with
    | nil =>
      have hih := @ih [] fun s hs t ht => hsub s (List.mem_cons_of_mem _ hs) t ht
      cases restB with
      | none => simp [elemsSubtype]
      | some rb => simp [elemsSubtype, hih, hsub ea.type (by simp) rb (by simp)]
    | cons eb bs =>
      have hih := @ih bs fun s hs t ht =>
        hsub s (List.mem_cons_of_mem _ hs) t (List.mem_cons_of_mem _ ht)
      simp [elemsSubtype, hih, hsub ea.type (by simp) eb.type (by simp)]

theorem paramsSubtype_congr {paramsA paramsB : List (Param Ty)}
    (hsub : ∀ pa ∈ paramsA, ∀ pb ∈ paramsB, (r.subtype (argType pb) (argType pa)).run =
      (r'.subtype (argType pb) (argType pa)).run) :
    (paramsSubtype r paramsA paramsB).run = (paramsSubtype r' paramsA paramsB).run := by
  induction paramsA generalizing paramsB with
  | nil => cases paramsB <;> rfl
  | cons pa as ih =>
    cases paramsB with
    | nil => rfl
    | cons pb bs =>
      have hih := @ih bs fun p hp q hq => hsub p (by simp [hp]) q (by simp [hq])
      simp [paramsSubtype, hih, hsub pa (by simp) pb (by simp)]

theorem elemsDisjoint_congr {elemsA elemsB : List (Elem Ty)}
    (hdis : ∀ ea ∈ elemsA, ∀ eb ∈ elemsB, (r.disjoint ea.type eb.type).run =
      (r'.disjoint ea.type eb.type).run) :
    (elemsDisjoint r elemsA elemsB).run = (elemsDisjoint r' elemsA elemsB).run := by
  induction elemsA generalizing elemsB with
  | nil => cases elemsB <;> rfl
  | cons ea as ih =>
    cases elemsB with
    | nil => rfl
    | cons eb bs =>
      have hih := @ih bs fun e he f hf => hdis e (by simp [he]) f (by simp [hf])
      simp [elemsDisjoint, hih, hdis ea (by simp) eb (by simp)]

theorem propsDisjoint_congr {propsA propsB : List (Property Ty)}
    (hdis : ∀ pa ∈ propsA, ∀ pb ∈ propsB, (r.disjoint pa.type pb.type).run =
      (r'.disjoint pa.type pb.type).run) :
    (propsDisjoint r propsA propsB).run = (propsDisjoint r' propsA propsB).run := by
  simp only [propsDisjoint, Ideal.run_anyM]
  refine any_congr_of_mem fun pa hpa => ?_
  cases hfind : Ty.findProp? propsB pa.name with
  | none => rfl
  | some pb => simp [hdis pa hpa pb (Ty.findProp?_some hfind).1]

theorem mergedProps_congr {propsA propsB : List (Property Ty)}
    (hmeet : ∀ pa ∈ propsA, ∀ pb ∈ propsB, (r.intersect [pa.type, pb.type]).run =
      (r'.intersect [pa.type, pb.type]).run) :
    (mergedProps r propsB propsA).run = (mergedProps r' propsB propsA).run := by
  induction propsA with
  | nil => rfl
  | cons pa rest ih =>
    have hih := ih fun p hp => hmeet p (by simp [hp])
    rw [mergedProps, mergedProps]
    cases hfind : Ty.findProp? propsB pa.name with
    | none =>
      simp only [Ideal.run_bind, hih]
      cases (mergedProps r' propsB rest).run <;> rfl
    | some pb =>
      simp only [Ideal.run_bind, Ideal.run_ite, hih, hmeet pa (by simp) pb (Ty.findProp?_some hfind).1]
      cases (mergedProps r' propsB rest).run <;> rfl

theorem mergeObjects_congr (htag : ∀ {tagA tagB : String} {propsA propsB : List (Property Ty)},
      a = .object tagA propsA → b = .object tagB propsB → mergedTag h tagA tagB = mergedTag k tagA tagB)
    (hmeet : ∀ s ∈ a.parts, ∀ t ∈ b.parts, (r.intersect [s, t]).run = (r'.intersect [s, t]).run) :
    (mergeObjects r a b).run = (mergeObjects r' a b).run := by
  rw [mergeObjects.eq_def, mergeObjects.eq_def]
  split
  · rename_i tagA propsA tagB propsB
    have hprops : (mergedProps r propsB propsA).run = (mergedProps r' propsB propsA).run :=
      mergedProps_congr fun pa hpa pb hpb =>
        hmeet _ (List.mem_map_of_mem hpa) _ (List.mem_map_of_mem hpb)
    simp only [Ideal.run_bind, Ideal.run_hierarchy, htag rfl rfl]
    cases mergedTag k tagA tagB with
    | none => rfl
    | some tag =>
      simp only [Ideal.run_bind, hprops]
      cases (mergedProps r' propsB propsA).run <;> rfl
  · rfl

/-- Fusing looks at members of one kind only, if what they combine into is of that kind. -/
theorem fuseAll_congr {P : Ty → Prop} {ms : List Ty} (rounds : Nat)
    (hP : ∀ a b t, P a → P b → (combine r a b).run = .into t → P t)
    (hcombine : ∀ a b, P a → P b → (combine r a b).run = (combine r' a b).run)
    (hms : ∀ m ∈ ms, P m) : (fuseAll r rounds ms).run = (fuseAll r' rounds ms).run := by
  -- the same pair is found, and it combines alike, in every round
  have hwith (a) (ha : P a) (before rest : List Ty) (hrest : ∀ b ∈ rest, P b) :
      (fuseWith r a before rest).run = (fuseWith r' a before rest).run := by
    induction rest generalizing before with
    | nil => rfl
    | cons b rest ih =>
      have hb := hrest b (by simp)
      rw [fuseWith, fuseWith, Ideal.run_bind, Ideal.run_bind, ← hcombine a b ha hb]
      cases (combine r a b).run with
      | apart => exact ih _ fun c hc => hrest c (by simp [hc])
      | empty => rfl
      | into t => rfl
  have hfirst (before ms : List Ty) (hms : ∀ m ∈ ms, P m) :
      (fuseFirst r before ms).run = (fuseFirst r' before ms).run := by
    induction ms generalizing before with
    | nil => rfl
    | cons a rest ih =>
      have hrest (b) (hb : b ∈ rest) : P b := hms b (by simp [hb])
      rw [fuseFirst, fuseFirst, Ideal.run_bind, Ideal.run_bind,
        ← hwith a (hms a (by simp)) [] rest hrest]
      cases (fuseWith r a [] rest).run with
      | stable => exact ih _ hrest
      | empty => rfl
      | fused _ => rfl
  induction rounds generalizing ms with
  | zero => rfl
  | succ rounds ih =>
    rw [fuseAll, fuseAll, Ideal.run_bind, Ideal.run_bind, ← hfirst [] ms hms]
    rcases fuseFirst_found r [] ms with ⟨heq, -⟩ | ⟨heq, -⟩ | ⟨fused, heq, hf⟩
    · rw [heq]
      rfl
    · rw [heq]
      rfl
    · rw [heq]
      exact ih (Fuses.forall hP hf hms)

theorem foundProps_congr {name : Text} {ts : List Ty}
    (hprop : ∀ t ∈ ts, (r.propertyOf t name).run = (r'.propertyOf t name).run) :
    (foundProps r name ts).run = (foundProps r' name ts).run := by
  have hmap := congrArg (List.filterMap id) (List.map_congr_left hprop)
  rw [List.filterMap_map, List.filterMap_map] at hmap
  rw [run_foundProps, run_foundProps]
  exact hmap

theorem sharedProps_congr {name : Text} {ts : List Ty}
    (hprop : ∀ t ∈ ts, (r.propertyOf t name).run = (r'.propertyOf t name).run) :
    (sharedProps r name ts).run = (sharedProps r' name ts).run := by
  refine Option.ext fun ps => ?_
  rw [sharedProps_some, sharedProps_some, List.map_congr_left hprop]

/-- Merging asks for intersections of one kind of type only, if they are of that kind again. -/
theorem meetProps_congr {P : Ty → Prop}
    (hP : ∀ s t, P s → P t → P (r.intersect [s, t]).run)
    (hmeet : ∀ s t, P s → P t → (r.intersect [s, t]).run = (r'.intersect [s, t]).run)
    (merged : Property Ty) (ps : List (Property Ty)) (hm : P merged.type)
    (hps : ∀ p ∈ ps, P p.type) : (meetProps r merged ps).run = (meetProps r' merged ps).run := by
  induction ps generalizing merged with
  | nil => rfl
  | cons p ps ih =>
    have hp := hps p (by simp)
    rw [meetProps, meetProps, Ideal.run_bind, Ideal.run_bind, ← hmeet _ _ hm hp]
    exact ih _ (hP _ _ hm hp) fun q hq => hps q (by simp [hq])

end Congruence

/-! ## Answers that agree below a rank -/

/-- Two sets of answers agree on the questions about shallow types below a rank. -/
structure Agree {h : Hierarchy} (n k : Nat) (r r' : Rules (Ideal h)) : Prop where
  subtype : ∀ {a b : Ty}, a.Shallow n → b.Shallow n → subtypeRank n a b < k →
    (r.subtype a b).run = (r'.subtype a b).run
  disjoint : ∀ {a b : Ty}, a.Shallow n → b.Shallow n → disjointRank n a b < k →
    (r.disjoint a b).run = (r'.disjoint a b).run
  property : ∀ {t : Ty} (name : Text), t.Shallow n → propertyRank n t < k →
    (r.propertyOf t name).run = (r'.propertyOf t name).run
  intersect : ∀ {ts : List Ty}, (∀ t ∈ ts, t.Shallow n) → intersectRank n ts < k →
    (r.intersect ts).run = (r'.intersect ts).run

/-- The answers by rule, with given answers to the smaller questions. -/
def next {m : Type → Type} [TypeStore m] (r : Rules m) : Rules m :=
  { subtype := subtypeStep r
    disjoint := disjointStep r
    propertyOf := propertyStep r
    intersect := intersectStep r }

namespace Agree

variable {h : Hierarchy} {k : Nat} {r r' : Rules (Ideal h)}

/-- Shapes, tuples and functions are compared by their parts, a layer below. -/
theorem subtype_below (hag : Agree n k r r')
    (hk : subtypeRank n a b ≤ k) (hs : s.Bounded n (max a.depth b.depth - 1))
    (ht : t.Bounded n (max a.depth b.depth - 1)) (hd : 1 ≤ max a.depth b.depth) :
    (r.subtype s t).run = (r'.subtype s t).run :=
  hag.subtype hs.shallow ht.shallow (Nat.lt_of_lt_of_le (subtypeRank_below hs ht hd) hk)

theorem objectSubtype (hag : Agree n k r r') (hr : Tame r n) {tag : String}
    {props : List (Property Ty)} (ha : a.Shallow n) (hb : (Ty.object tag props).Shallow n)
    (hk : subtypeRank n a (.object tag props) ≤ k) :
    (objectSubtype r a tag props).run = (objectSubtype r' a tag props).run := by
  have hd : 1 ≤ (Ty.object tag props).depth := one_le_depth rfl
  have hprop (name) : (r.propertyOf a name).run = (r'.propertyOf a name).run :=
    hag.property name ha (Nat.lt_of_lt_of_le (propertyRank_lt_subtypeRank a tag props) hk)
  have hprops : (propsSubtype r a props).run = (propsSubtype r' a props).run := by
    refine propsSubtype_congr hprop fun pb hpb pa hpa => ?_
    have hpa : pa.type.Bounded n (a.depth - 1) := hr.property ⟨ha, Nat.le_refl _⟩ hpa
    exact hag.subtype_below hk (hpa.mono (by omega))
      (below_right hb rfl (List.mem_map_of_mem hpb)) (by omega)
  by_cases hnull : a = .null ∨ a = .undefined
  · rcases hnull with rfl | rfl <;> rfl
  · rw [not_or] at hnull
    rw [run_objectSubtype r a hnull.1 hnull.2, run_objectSubtype r' a hnull.1 hnull.2, hprops]

theorem plainSubtype (hag : Agree n k r r') (hr : Tame r n) (ha : a.Shallow n) (hb : b.Shallow n)
    (hk : subtypeRank n a b ≤ k) : (plainSubtype r a b).run = (plainSubtype r' a b).run := by
  rw [Rules.plainSubtype.eq_def, Rules.plainSubtype.eq_def]
  split
  · exact hag.objectSubtype hr ha hb hk
  · rename_i elemsA restA elemsB restB
    have hd := one_le_depth (a := .tuple elemsA restA) rfl
    exact elemsSubtype_congr fun s hs t ht =>
      hag.subtype_below hk (below_left ha rfl hs) (below_right hb rfl ht) (by omega)
  · rename_i paramsA retA paramsB retB
    have hd := one_le_depth (a := .function paramsA retA) rfl
    have hparams : (paramsSubtype r paramsA paramsB).run = (paramsSubtype r' paramsA paramsB).run := by
      refine paramsSubtype_congr fun pa hpa pb hpb => ?_
      refine hag.subtype_below hk (argType_bounded (below_right hb rfl ?_))
        (argType_bounded (below_left ha rfl ?_)) (by omega)
      · exact List.mem_append_left _ (List.mem_map_of_mem hpb)
      · exact List.mem_append_left _ (List.mem_map_of_mem hpa)
    have hret : (r.subtype retA retB).run = (r'.subtype retA retB).run :=
      hag.subtype_below hk (below_left ha rfl (by simp [parts])) (below_right hb rfl (by simp [parts]))
        (by omega)
    simp [functionSubtype, hparams, hret]
  all_goals rfl

/-- The parts that a question opens on its left side. -/
theorem subtype_left (hag : Agree n k r r') (ha : a.Shallow n) (hb : b.Shallow n)
    (hk : subtypeRank n a b ≤ k) (ho : a.opens = true) (hs : s ∈ a.parts) :
    (r.subtype s b).run = (r'.subtype s b).run :=
  hag.subtype (ha.part hs) hb (Nat.lt_of_lt_of_le (subtypeRank_left ho hs) hk)

/-- The parts that a question opens on its right side. -/
theorem subtype_right (hag : Agree n k r r') (ha : a.Shallow n) (hb : b.Shallow n)
    (hk : subtypeRank n a b ≤ k) (ho : b.opens = true) (ht : t ∈ b.parts) :
    (r.subtype a t).run = (r'.subtype a t).run :=
  hag.subtype ha (hb.part ht) (Nat.lt_of_lt_of_le (subtypeRank_right ho ht) hk)

theorem rightSubtype (hag : Agree n k r r') (hr : Tame r n) (ha : a.Shallow n) (hb : b.Shallow n)
    (hk : subtypeRank n a b ≤ k) : (rightSubtype r a b).run = (rightSubtype r' a b).run := by
  have hleft (ho : a.opens = true) :
      (a.parts.any fun s => (r.subtype s b).run) = a.parts.any fun s => (r'.subtype s b).run :=
    any_congr_of_mem fun s hs => hag.subtype_left ha hb hk ho hs
  have hright (ho : b.opens = true) :
      (b.parts.any fun t => (r.subtype a t).run) = b.parts.any fun t => (r'.subtype a t).run :=
    any_congr_of_mem fun t ht => hag.subtype_right ha hb hk ho ht
  rw [Rules.rightSubtype.eq_def, Rules.rightSubtype.eq_def]
  split
  · rename_i bs as
    have has : (as.any fun t => (r.subtype t (.union bs)).run) = _ := hleft rfl
    have hbs : (bs.any fun t => (r.subtype (.inter as) t).run) = _ := hright rfl
    simp only [Ideal.run_bind, Ideal.run_anyM, Ideal.run_ite, has, hbs]
    rfl
  · simp only [Ideal.run_anyM]
    exact hright rfl
  · rename_i tag props as
    have has : (as.any fun t => (r.subtype t (.object tag props)).run) = _ := hleft rfl
    simp only [Ideal.run_bind, Ideal.run_anyM, Ideal.run_ite, has, hag.objectSubtype hr ha hb hk]
    rfl
  · simp only [Ideal.run_anyM]
    exact hleft rfl
  · exact hag.plainSubtype hr ha hb hk

theorem varSubtype (hag : Agree n k r r') {v : String} {bound : Option Ty}
    (ha : (Ty.var v bound).Shallow n) (hb : b.Shallow n)
    (hk : subtypeRank n (.var v bound) b ≤ k) :
    (varSubtype r (.var v bound) bound b).run = (varSubtype r' (.var v bound) bound b).run := by
  rw [run_varSubtype, run_varSubtype]
  congr 1
  · cases b with
    | union bs =>
      simp only [isUnion, members, Bool.true_and]
      exact any_congr_of_mem fun t ht => hag.subtype_right ha hb hk rfl ht
    | _ => rfl
  · cases bound with
    | none => rfl
    | some c =>
      simpa using hag.subtype_left ha hb hk rfl (s := c) (by simp [parts])

theorem subtypeRule (hag : Agree n k r r') (hr : Tame r n) (ha : a.Shallow n) (hb : b.Shallow n)
    (hk : subtypeRank n a b ≤ k) : (subtypeRule r a b).run = (subtypeRule r' a b).run := by
  rw [Rules.subtypeRule.eq_def, Rules.subtypeRule.eq_def]
  split
  · rfl
  · rfl
  · rfl
  · rfl
  · simp only [Ideal.run_allM]
    exact all_congr_of_mem fun s hs => hag.subtype_left ha hb hk rfl hs
  · simp only [Ideal.run_allM]
    exact all_congr_of_mem fun t ht => hag.subtype_right ha hb hk rfl ht
  · exact hag.varSubtype ha hb hk
  · exact hag.rightSubtype hr ha hb hk

theorem subtypeStep (hag : Agree n k r r') (hr : Tame r n) (ha : a.Shallow n) (hb : b.Shallow n)
    (hk : subtypeRank n a b ≤ k) : (subtypeStep r a b).run = (subtypeStep r' a b).run := by
  rw [run_subtypeStep, run_subtypeStep, hag.subtypeRule hr ha hb hk]

/-! ### Disjointness -/

theorem disjoint_below (hag : Agree n k r r') (hk : disjointRank n a b ≤ k)
    (hs : s.Bounded n (max a.depth b.depth - 1)) (ht : t.Bounded n (max a.depth b.depth - 1))
    (hd : 1 ≤ max a.depth b.depth) : (r.disjoint s t).run = (r'.disjoint s t).run :=
  hag.disjoint hs.shallow ht.shallow (Nat.lt_of_lt_of_le (disjointRank_below hs ht hd) hk)

theorem disjointStep (hag : Agree n k r r') (ha : a.Shallow n) (hb : b.Shallow n)
    (hk : disjointRank n a b ≤ k) : (disjointStep r a b).run = (disjointStep r' a b).run := by
  have hrank := subtypeRank_lt_disjointRank n a b
  have hsub := hag.subtype ha hb (Nat.lt_of_lt_of_le hrank.1 hk)
  have hsub' := hag.subtype hb ha (Nat.lt_of_lt_of_le hrank.2 hk)
  -- members and parts are asked about at a lower rank
  have hmembers (hu : (a.isUnion || b.isUnion) = true) :
      (a.members.all fun s => b.members.all fun t => (r.disjoint s t).run) =
        a.members.all fun s => b.members.all fun t => (r'.disjoint s t).run := by
    refine all_congr_of_mem fun s hs => all_congr_of_mem fun t ht => ?_
    exact hag.disjoint (members_le ha hs).1 (members_le hb ht).1
      (Nat.lt_of_lt_of_le (disjointRank_members ha hb hu hs ht) hk)
  have hparts : (partsDisjoint r a b).run = (partsDisjoint r' a b).run := by
    rw [partsDisjoint.eq_def, partsDisjoint.eq_def]
    split
    · rfl
    · rename_i tagA propsA tagB propsB
      have hd := one_le_depth (a := .object tagA propsA) rfl
      exact propsDisjoint_congr fun pa hpa pb hpb =>
        hag.disjoint_below hk (below_left ha rfl (List.mem_map_of_mem hpa))
          (below_right hb rfl (List.mem_map_of_mem hpb)) (by omega)
    · rename_i elemsA restA elemsB restB
      have hd := one_le_depth (a := .tuple elemsA restA) rfl
      have helems : (elemsDisjoint r elemsA elemsB).run = (elemsDisjoint r' elemsA elemsB).run := by
        refine elemsDisjoint_congr fun ea hea eb heb => ?_
        refine hag.disjoint_below hk (below_left ha rfl ?_) (below_right hb rfl ?_) (by omega)
        · exact List.mem_append_left _ (List.mem_map_of_mem hea)
        · exact List.mem_append_left _ (List.mem_map_of_mem heb)
      simp only [Ideal.run_ite, helems]
    · rfl
  rw [run_disjointStep, run_disjointStep, hparts, hsub, hsub']
  split
  · rfl
  · split
    · rfl
    · split
      · exact hmembers ‹_›
      · rfl

/-! ### Properties -/

theorem propertyStep (hag : Agree n k r r') (hr : Tame r n) (name : Text) (ht : t.Shallow n)
    (hk : propertyRank n t ≤ k) : (propertyStep r t name).run = (propertyStep r' t name).run := by
  -- asking a part ranks below asking the type
  have hpart (ho : t.opens = true) (s) (hs : s ∈ t.parts) :
      (r.propertyOf s name).run = (r'.propertyOf s name).run :=
    hag.property name (ht.part hs) (Nat.lt_of_lt_of_le (propertyRank_part ho hs) hk)
  cases t with
  | var v bound =>
    cases bound with
    | none => simp [Rules.propertyStep]
    | some bound => simpa [Rules.propertyStep] using hpart rfl bound (by simp [parts])
  | inter ms =>
    have hfound : (foundProps r name ms).run = (foundProps r' name ms).run :=
      foundProps_congr (hpart rfl)
    -- what is found is bounded, so that meeting it ranks below, too
    have hbounded : ∀ q ∈ ms.filterMap fun t => (r.propertyOf t name).run,
        q.type.Bounded n ((Ty.inter ms).depth - 1) := by
      intro q hq
      obtain ⟨m, hm, hq⟩ := List.mem_filterMap.1 hq
      have hm : m.Bounded n (Ty.inter ms).depth := Bounded.part (t := .inter ms) ⟨ht, Nat.le_refl _⟩ hm
      exact hr.property hm hq
    simp only [Rules.propertyStep, Ideal.run_bind, ← hfound, run_foundProps]
    cases hlist : ms.filterMap fun t => (r.propertyOf t name).run with
    | nil => rfl
    | cons q qs =>
      rw [hlist] at hbounded
      simp only [Ideal.run_bind, Ideal.run_pure]
      rw [meetProps_congr (P := Bounded n ((Ty.inter ms).depth - 1))]
      · exact fun s t hs ht => hr.intersect (by simp [hs, ht])
      · exact fun s t hs ht => hag.intersect (by simp [hs.shallow, ht.shallow])
          (Nat.lt_of_lt_of_le (intersectRank_lt_propertyRank hs ht) hk)
      · exact hbounded q (by simp)
      · exact fun p hp => hbounded p (by simp [hp])
  | union ms =>
    have hshared : (sharedProps r name ms).run = (sharedProps r' name ms).run :=
      sharedProps_congr (hpart rfl)
    simp only [Rules.propertyStep, Ideal.run_bind, hshared]
  | literal l => cases l <;> simp [Rules.propertyStep]
  | _ => simp [Rules.propertyStep]

/-! ### Intersections -/

theorem combine (hag : Agree n k r r') {d : Nat} (hk : layerSteps n * d + (2 * n + 7) ≤ k)
    (ha : a.Bounded n d ∧ a.isUnion = false ∧ a.isInter = false)
    (hb : b.Bounded n d ∧ b.isUnion = false ∧ b.isInter = false) :
    (combine r a b).run = (combine r' a b).run := by
  have hrank : disjointRank n a b < k := Nat.lt_of_lt_of_le (disjointRank_lt_of_plain ha hb) hk
  have hsub := subtypeRank_lt_disjointRank n a b
  have hmerge : (mergeObjects r a b).run = (mergeObjects r' a b).run := by
    refine mergeObjects_congr (fun _ _ => rfl) fun s hs t ht => ?_
    have hlt := intersectRank_lt_of_plain ha hb hs ht
    have hs := (bounded_part_of_plain ha hs).2.shallow
    have ht := (bounded_part_of_plain hb ht).2.shallow
    exact hag.intersect (by simp [hs, ht]) (by omega)
  rw [run_combine, run_combine, hag.subtype ha.1.shallow hb.1.shallow (Nat.lt_trans hsub.1 hrank),
    hag.subtype hb.1.shallow ha.1.shallow (Nat.lt_trans hsub.2 hrank),
    hag.disjoint ha.1.shallow hb.1.shallow hrank, hmerge]

theorem intersectStep (hag : Agree n k r r') (hr : Tame r n) {ts : List Ty}
    (hts : ∀ t ∈ ts, t.Shallow n) (hk : intersectRank n ts ≤ k) :
    (intersectStep r ts).run = (intersectStep r' ts).run := by
  have hbounded : ∀ t ∈ ts, t.Bounded n (greatest depth ts) :=
    fun t ht => ⟨hts t ht, le_greatest ht⟩
  rw [Rules.intersectStep, Rules.intersectStep]
  cases hflat : conjunctsAll ts with
  | none => rfl
  | some flat =>
    have hmem (x) (hx : x ∈ dedup flat) := bounded_of_parted hbounded hflat hx
    cases hfirst : firstUnion? (dedup flat) with
    | some found =>
      obtain ⟨us, others⟩ := found
      obtain ⟨before, after, heq, rfl⟩ := firstUnion?_some hfirst
      have hus : (us.map fun u => (r.intersect (u :: (before ++ after))).run) =
          us.map fun u => (r'.intersect (u :: (before ++ after))).run := by
        refine List.map_congr_left fun u hu => ?_
        have hlist := bounded_of_spread hts hflat heq hu
        exact hag.intersect (fun t ht => (hlist t ht).shallow)
          (Nat.lt_of_lt_of_le (intersectRank_spread hts hflat heq hu) hk)
      simp only [hfirst, Ideal.run_bind, Ideal.run_mapM, hus]
    | none =>
      have hfuse : (fuseAll r (dedup flat).length (dedup flat)).run =
          (fuseAll r' (dedup flat).length (dedup flat)).run := by
        refine fuseAll_congr (P := fun x => x.Bounded n (greatest depth ts) ∧ x.isUnion = false ∧
          x.isInter = false) _ ?_ ?_ ?_
        · exact fun a b t ha hb hc => ⟨hr.combine ha.1 hb.1 hc, combine_plain ha.2 hb.2 hc⟩
        · refine fun a b ha hb => hag.combine ?_ ha hb
          simp only [intersectRank] at hk
          omega
        · exact fun x hx => ⟨(hmem x hx).1, firstUnion?_none hfirst hx, (hmem x hx).2⟩
      simp only [hfirst, Ideal.run_bind, hfuse]

/-- Rules that ask agreeing answers agree on one rank more. -/
theorem next (hag : Agree n k r r') (hr : Tame r n) : Agree n (k + 1) r.next r'.next where
  subtype ha hb hk := hag.subtypeStep hr ha hb (by omega)
  disjoint ha hb hk := hag.disjointStep ha hb (by omega)
  property name ht hk := hag.propertyStep hr name ht (by omega)
  intersect hts hk := hag.intersectStep hr hts (by omega)

end Agree

/-! ## The bound is large enough -/

variable {h : Hierarchy}

theorem upTo_succ (k : Nat) : (upTo (k + 1) : Rules (Ideal h)) = (upTo k).next := rfl

/-- Answers with more nested steps than the rank of a question all agree on it. -/
theorem upTo_agree (h : Hierarchy) (n : Nat) {k j j' : Nat} (hj : k ≤ j) (hj' : k ≤ j') :
    Agree n k (upTo j : Rules (Ideal h)) (upTo j') := by
  induction k generalizing j j' with
  | zero => exact ⟨by simp, by simp, by simp, by simp⟩
  | succ k ih =>
    obtain ⟨j, rfl⟩ : ∃ i, j = i + 1 := ⟨j - 1, by omega⟩
    obtain ⟨j', rfl⟩ : ∃ i, j' = i + 1 := ⟨j' - 1, by omega⟩
    rw [upTo_succ, upTo_succ]
    exact (ih (by omega) (by omega)).next (upTo_tame h n j)

/-- How deep the calls that answer a question about the given types are nested at most: a number of steps for
each layer of depth, and for two more. -/
def nestingBound (ts : List Ty) : Nat := layerSteps (sizeAll ts) * (greatest depth ts + 2)

section Bound

variable {ts : List Ty}

theorem rank_lt_nestingBound {d e : Nat} (hd : d ≤ greatest depth ts + 1) (he : e < layerSteps (sizeAll ts)) :
    layerSteps (sizeAll ts) * d + e < nestingBound ts := by
  have hmul := Nat.mul_le_mul_left (layerSteps (sizeAll ts)) hd
  rw [nestingBound, layerSteps_succ]
  omega

theorem disjointRank_lt_nestingBound (a b : Ty) :
    disjointRank (sizeAll [a, b]) a b < nestingBound [a, b] := by
  have hha := height_le_size a
  have hhb := height_le_size b
  have hsize : sizeAll [a, b] = a.size + b.size := by simp [sizeAll]
  have hdepth : max a.depth b.depth ≤ greatest depth [a, b] :=
    Nat.max_le.2 ⟨le_greatest (by simp), le_greatest (by simp)⟩
  rw [disjointRank, Nat.add_assoc, Nat.add_assoc]
  exact rank_lt_nestingBound (Nat.le_succ_of_le hdepth) (by simp only [layerSteps]; omega)

theorem propertyRank_lt_nestingBound (t : Ty) : propertyRank (sizeAll [t]) t < nestingBound [t] := by
  have hh := height_le_size t
  have hsize : sizeAll [t] = t.size := by simp [sizeAll]
  have hdepth : t.depth ≤ greatest depth [t] := le_greatest (by simp)
  exact rank_lt_nestingBound (by omega) (by simp only [layerSteps]; omega)

theorem intersectRank_lt_nestingBound (ts : List Ty) : intersectRank (sizeAll ts) ts < nestingBound ts := by
  have hs : spreadAll ts ≤ sizeAll ts := spreadAll_le_sizeAll fun t _ => spread_le_size t
  rw [intersectRank, Nat.add_assoc]
  exact rank_lt_nestingBound (Nat.le_succ _) (by simp only [layerSteps]; omega)

/-- The bound on steps takes the size of the types for their depth. -/
theorem nestingBound_le_stepBound (ts : List Ty) : nestingBound ts ≤ stepBound ts := by
  have hd : greatest depth ts ≤ sizeAll ts :=
    greatest_le fun t ht => Nat.le_trans (depth_le_size t) (size_le_sizeAll ht)
  exact Nat.mul_le_mul (by simp only [layerSteps]; omega) (by omega)

theorem subtypeRank_lt_stepBound (a b : Ty) :
    subtypeRank (sizeAll [a, b]) a b < stepBound [a, b] ∧
      disjointRank (sizeAll [a, b]) a b < stepBound [a, b] := by
  have hlt := Nat.lt_of_lt_of_le (disjointRank_lt_nestingBound a b) (nestingBound_le_stepBound [a, b])
  exact ⟨Nat.lt_trans (subtypeRank_lt_disjointRank _ a b).1 hlt, hlt⟩

theorem propertyRank_lt_stepBound (t : Ty) : propertyRank (sizeAll [t]) t < stepBound [t] :=
  Nat.lt_of_lt_of_le (propertyRank_lt_nestingBound t) (nestingBound_le_stepBound [t])

theorem intersectRank_lt_stepBound (ts : List Ty) : intersectRank (sizeAll ts) ts < stepBound ts :=
  Nat.lt_of_lt_of_le (intersectRank_lt_nestingBound ts) (nestingBound_le_stepBound ts)

end Bound

theorem shallow_of_mem {ts : List Ty} (ht : t ∈ ts) : t.Shallow (sizeAll ts) :=
  .of_size_le t (size_le_sizeAll ht)

end FlowTyping.Rules

/-! ## The public operations as their own rules -/

namespace FlowTyping.Hierarchy

open Rules Ty

variable (h : Hierarchy)

/-- The public operations agree with answers of any large enough number of steps: both agree with
answers of more steps than either takes. -/
theorem answers_agree (n : Nat) {k j : Nat} (hj : k ≤ j) : Agree n k (upTo j) h.answers := by
  have hlarge (ts : List Ty) : Agree n k (upTo j : Rules (Ideal h)) (upTo (max j (stepBound ts))) :=
    upTo_agree h n hj (Nat.le_trans hj (Nat.le_max_left ..))
  have hown (ts : List Ty) : Agree (sizeAll ts) (stepBound ts)
      (upTo (stepBound ts) : Rules (Ideal h)) (upTo (max j (stepBound ts))) :=
    upTo_agree h _ (Nat.le_refl _) (Nat.le_max_right ..)
  refine ⟨?_, ?_, ?_, ?_⟩
  · intro a b ha hb hk
    exact ((hlarge [a, b]).subtype ha hb hk).trans ((hown [a, b]).subtype (shallow_of_mem (by simp))
      (shallow_of_mem (by simp)) (subtypeRank_lt_stepBound a b).1).symm
  · intro a b ha hb hk
    exact ((hlarge [a, b]).disjoint ha hb hk).trans ((hown [a, b]).disjoint (shallow_of_mem (by simp))
      (shallow_of_mem (by simp)) (subtypeRank_lt_stepBound a b).2).symm
  · intro t name ht hk
    exact ((hlarge [t]).property name ht hk).trans ((hown [t]).property name
      (shallow_of_mem (by simp)) (propertyRank_lt_stepBound t)).symm
  · intro ts hts hk
    exact ((hlarge ts).intersect hts hk).trans ((hown ts).intersect
      (fun t ht => shallow_of_mem ht) (intersectRank_lt_stepBound ts)).symm

/-- The bound on the steps of a question leaves room for one more. -/
theorem stepBound_eq_succ (ts : List Ty) : ∃ k, stepBound ts = k + 1 := by
  refine ⟨stepBound ts - 1, ?_⟩
  have := intersectRank_lt_stepBound ts
  omega

theorem subtype_knot (a b : Ty) : h.subtype a b = (subtypeStep h.answers a b).run := by
  obtain ⟨k, hk⟩ := stepBound_eq_succ [a, b]
  have hrank := (subtypeRank_lt_stepBound a b).1
  have hown : h.subtype a b = (subtypeStep (upTo k : Rules (Ideal h)) a b).run := by
    show ((upTo (stepBound [a, b]) : Rules (Ideal h)).subtype a b).run = _
    rw [hk, upTo_succ]
    rfl
  rw [hown]
  exact (h.answers_agree (sizeAll [a, b]) (Nat.le_refl k)).subtypeStep (upTo_tame h _ k)
    (shallow_of_mem (by simp)) (shallow_of_mem (by simp)) (by omega)

theorem disjoint_knot (a b : Ty) : h.disjoint a b = (disjointStep h.answers a b).run := by
  obtain ⟨k, hk⟩ := stepBound_eq_succ [a, b]
  have hrank := (subtypeRank_lt_stepBound a b).2
  have hown : h.disjoint a b = (disjointStep (upTo k : Rules (Ideal h)) a b).run := by
    show ((upTo (stepBound [a, b]) : Rules (Ideal h)).disjoint a b).run = _
    rw [hk, upTo_succ]
    rfl
  rw [hown]
  exact (h.answers_agree (sizeAll [a, b]) (Nat.le_refl k)).disjointStep
    (shallow_of_mem (by simp)) (shallow_of_mem (by simp)) (by omega)

theorem propertyOf_knot (t : Ty) (name : Text) :
    h.propertyOf t name = (propertyStep h.answers t name).run := by
  obtain ⟨k, hk⟩ := stepBound_eq_succ [t]
  have hrank := propertyRank_lt_stepBound t
  have hown : h.propertyOf t name = (propertyStep (upTo k : Rules (Ideal h)) t name).run := by
    show ((upTo (stepBound [t]) : Rules (Ideal h)).propertyOf t name).run = _
    rw [hk, upTo_succ]
    rfl
  rw [hown]
  exact (h.answers_agree (sizeAll [t]) (Nat.le_refl k)).propertyStep (upTo_tame h _ k) name
    (shallow_of_mem (by simp)) (by omega)

theorem intersect_knot (ts : List Ty) : h.intersect ts = (intersectStep h.answers ts).run := by
  obtain ⟨k, hk⟩ := stepBound_eq_succ ts
  have hrank := intersectRank_lt_stepBound ts
  have hown : h.intersect ts = (intersectStep (upTo k : Rules (Ideal h)) ts).run := by
    show ((upTo (stepBound ts) : Rules (Ideal h)).intersect ts).run = _
    rw [hk, upTo_succ]
    rfl
  rw [hown]
  exact (h.answers_agree (sizeAll ts) (Nat.le_refl k)).intersectStep (upTo_tame h _ k)
    (fun t ht => shallow_of_mem ht) (by omega)

/-- The public operations keep the bounds of what they are asked about. -/
theorem answers_tame (n : Nat) : Tame h.answers n := by
  refine ⟨fun {d ts} hts => ?_, fun {d t name p} ht hp => ?_⟩
  · have hown : h.intersect ts = ((upTo (stepBound ts) : Rules (Ideal h)).intersect ts).run := rfl
    rw [Ideal.run_answers_intersect, hown]
    exact (upTo_tame h n _).intersect hts
  · have hown : h.propertyOf t name = ((upTo (stepBound [t]) : Rules (Ideal h)).propertyOf t name).run :=
      rfl
    rw [Ideal.run_answers_propertyOf, hown] at hp
    exact (upTo_tame h n _).property ht hp

end FlowTyping.Hierarchy
