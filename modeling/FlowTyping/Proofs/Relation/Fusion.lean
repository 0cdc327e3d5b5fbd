import FlowTyping.Proofs.Store.Union

/-!
# How the members of an intersection are put together

An intersection opens its arguments, distributes over a union among them, and otherwise combines
members in pairs. This module says what each of the three does, for any answers `r` to the smaller
questions.

* **`Ty.Conjunct`** — the types that opening nested intersections arrives at.
* **`Ty.firstUnion?_some`** — which member an intersection distributes over.
* **`Rules.Found`** — what one search for two members that combine can come to, and
  **`Rules.fuseFirst_found`** that it comes to one of these.
* **`Rules.Fuses`**, **`Rules.fuseAll_settled`** — the whole loop: a chain of such steps which ends with
  members no two of which combine, or with two that exclude each other.
* **`Rules.intersectStep_met`** — the ways in which an intersection comes about.
-/

namespace FlowTyping

namespace Ty

/-! ## Conjuncts -/

/-- Whether a type is an intersection. -/
def isInter : Ty → Bool
  | .inter _ => true
  | _ => false

/-- A type that opening nested intersections arrives at. -/
inductive Conjunct (x : Ty) : Ty → Prop where
  | self (hi : x.isInter = false) (hk : x.isUnknown = false) : Conjunct x x
  | member {m : Ty} {ms : List Ty} (hm : m ∈ ms) (hx : Conjunct x m) : Conjunct x (.inter ms)

namespace Conjunct

variable {x t : Ty}

theorem isInter (hx : Conjunct x t) : x.isInter = false := by
  induction hx with
  | self hi _ => exact hi
  | member _ _ ih => exact ih

theorem isUnknown (hx : Conjunct x t) : x.isUnknown = false := by
  induction hx with
  | self _ hk => exact hk
  | member _ _ ih => exact ih

/-- A property that passes from an intersection to its members passes to the conjuncts. -/
theorem of_inter_closed {P : Ty → Prop} (hP : ∀ ms, P (.inter ms) → ∀ m ∈ ms, P m)
    (hx : Conjunct x t) (ht : P t) : P x := by
  induction hx with
  | self _ _ => exact ht
  | member hm _ ih => exact ih (hP _ ht _ hm)

theorem inter_iff {ms : List Ty} : Conjunct x (.inter ms) ↔ ∃ m ∈ ms, Conjunct x m := by
  constructor
  · intro hx
    cases hx with
    | self hi _ => simp [Ty.isInter] at hi
    | member hm hx => exact ⟨_, hm, hx⟩
  · rintro ⟨m, hm, hx⟩
    exact .member hm hx

/-- What is no intersection has itself as conjunct, unless it is `unknown`. -/
theorem iff_of_not_inter (hi : t.isInter = false) :
    Conjunct x t ↔ x = t ∧ t.isUnknown = false := by
  constructor
  · intro hx
    cases hx with
    | self _ hk => exact ⟨rfl, hk⟩
    | member _ _ => simp [Ty.isInter] at hi
  · rintro ⟨rfl, hk⟩
    exact .self hi hk

end Conjunct

/-- Opening types as members of an intersection fails exactly on `never`, and gives their conjuncts
otherwise. -/
def Parted (ts : List Ty) : Option (List Ty) → Prop
  | none => ∃ t ∈ ts, Conjunct .never t
  | some flat =>
    (∀ t ∈ ts, ¬ Conjunct .never t) ∧ ∀ x, x ∈ flat ↔ ∃ t ∈ ts, Conjunct x t

theorem parted_singleton {t : Ty} (hi : t.isInter = false) (hn : t.isNever = false)
    (hk : t.isUnknown = false) : Parted [t] (some [t]) := by
  refine ⟨?_, ?_⟩
  · intro s hs hx
    obtain rfl : s = t := by simpa using hs
    obtain ⟨rfl, -⟩ := (Conjunct.iff_of_not_inter hi).1 hx
    simp [isNever] at hn
  · intro x
    simp [Conjunct.iff_of_not_inter hi, hk]

mutual
theorem conjuncts_parted (t : Ty) : Parted [t] (conjuncts t) := by
  cases t with
  | never =>
    rw [conjuncts]
    exact ⟨.never, by simp, .self rfl rfl⟩
  | unknown =>
    rw [conjuncts]
    simp [Parted, Conjunct.iff_of_not_inter (t := .unknown) rfl, isUnknown]
  | inter ms =>
    have hms := conjunctsAll_parted ms
    rw [conjuncts]
    cases hflat : conjunctsAll ms with
    | none =>
      rw [hflat] at hms
      obtain ⟨m, hm, hx⟩ := hms
      exact ⟨.inter ms, by simp, .member hm hx⟩
    | some flat =>
      rw [hflat] at hms
      simpa [Parted, Conjunct.inter_iff] using hms
  | _ => exact parted_singleton rfl rfl rfl

theorem conjunctsAll_parted (ts : List Ty) : Parted ts (conjunctsAll ts) := by
  cases ts with
  | nil =>
    rw [conjunctsAll]
    simp [Parted]
  | cons t ts =>
    have ht := conjuncts_parted t
    have hts := conjunctsAll_parted ts
    rw [conjunctsAll]
    cases hfirst : conjuncts t with
    | none =>
      rw [hfirst] at ht
      obtain ⟨s, hs, hx⟩ := ht
      exact ⟨t, by simp, by simpa using (List.mem_singleton.1 hs) ▸ hx⟩
    | some first =>
      rw [hfirst] at ht
      cases hrest : conjunctsAll ts with
      | none =>
        rw [hrest] at hts
        obtain ⟨s, hs, hx⟩ := hts
        exact ⟨s, by simp [hs], hx⟩
      | some rest =>
        rw [hrest] at hts
        refine ⟨?_, ?_⟩
        · intro s hs
          rcases List.mem_cons.1 hs with rfl | hs
          · exact ht.1 s (by simp)
          · exact hts.1 s hs
        · intro x
          simp [ht.2 x, hts.2 x]
end

theorem parted_of_conjunctsAll {ts : List Ty} {opened : Option (List Ty)}
    (hf : conjunctsAll ts = opened) : Parted ts opened :=
  hf ▸ conjunctsAll_parted ts

/-! ## The union that an intersection distributes over -/

theorem firstUnion?_some {ts ms others : List Ty} (hf : firstUnion? ts = some (ms, others)) :
    ∃ before after, ts = before ++ .union ms :: after ∧ others = before ++ after := by
  induction ts generalizing others with
  | nil => simp [firstUnion?] at hf
  | cons t ts ih =>
    have hskip (hu : t.isUnion = false) :
        firstUnion? (t :: ts) = (firstUnion? ts).map (Prod.map id (t :: ·)) := by
      cases t <;> first | rfl | simp [isUnion] at hu
    cases hu : t.isUnion with
    | true =>
      cases t with
      | union us =>
        obtain ⟨rfl, rfl⟩ : us = ms ∧ ts = others := by simpa [firstUnion?] using hf
        exact ⟨[], ts, rfl, rfl⟩
      | _ => simp [isUnion] at hu
    | false =>
      rw [hskip hu] at hf
      obtain ⟨⟨ms', others'⟩, hrest, heq⟩ := Option.map_eq_some_iff.1 hf
      obtain ⟨rfl, rfl⟩ : ms' = ms ∧ t :: others' = others := by simpa using heq
      obtain ⟨before, after, rfl, rfl⟩ := ih hrest
      exact ⟨t :: before, after, rfl, rfl⟩

theorem firstUnion?_none {ts : List Ty} (hf : firstUnion? ts = none) {t : Ty} (ht : t ∈ ts) :
    t.isUnion = false := by
  induction ts with
  | nil => simp at ht
  | cons s ts ih =>
    cases s with
    | union us => simp [firstUnion?] at hf
    | _ =>
      rw [firstUnion?] at hf
      · rcases List.mem_cons.1 ht with rfl | ht
        · rfl
        · exact ih (by simpa using hf) ht
      · simp

end Ty

/-! ## Fusing members -/

namespace Rules

variable {h : Hierarchy} (r : Rules (Ideal h))

/-- What a search for two members that combine can come to. -/
inductive Found (ms : List Ty) : Sweep → Prop where
  | stable (hapart : ms.Pairwise fun a b => (combine r a b).run = .apart) : Found ms .stable
  | empty {a b : Ty} (hsub : [a, b].Sublist ms) (hc : (combine r a b).run = .empty) :
    Found ms .empty
  | fused {before between after : List Ty} {a b t : Ty}
    (hms : ms = before ++ a :: (between ++ b :: after)) (hc : (combine r a b).run = .into t) :
    Found ms (.fused (before ++ t :: (between ++ after)))

/-- What combining one member with the following ones can come to. -/
inductive FoundWith (a : Ty) (before rest : List Ty) : Sweep → Prop where
  | stable (hapart : ∀ b ∈ rest, (combine r a b).run = .apart) : FoundWith a before rest .stable
  | empty {b : Ty} (hb : b ∈ rest) (hc : (combine r a b).run = .empty) :
    FoundWith a before rest .empty
  | fused {between after : List Ty} {b t : Ty} (hrest : rest = between ++ b :: after)
    (hc : (combine r a b).run = .into t) :
    FoundWith a before rest (.fused (t :: (before ++ between ++ after)))

variable {r}

/-- A member that `a` stays beside only moves to the front. -/
theorem FoundWith.cons {a b : Ty} {before rest : List Ty} {sweep : Sweep}
    (hb : (combine r a b).run = .apart) (hf : FoundWith r a (before ++ [b]) rest sweep) :
    FoundWith r a before (b :: rest) sweep := by
  cases hf with
  | stable hapart => exact .stable (by simpa [hb] using hapart)
  | empty hmem hc => exact .empty (List.mem_cons_of_mem _ hmem) hc
  | @fused between after c t hrest hc =>
    subst hrest
    have hfused : FoundWith r a before (b :: (between ++ c :: after))
        (.fused (t :: (before ++ (b :: between) ++ after))) := .fused rfl hc
    simpa using hfused

theorem fuseWith_found (r : Rules (Ideal h)) (a : Ty) (before rest : List Ty) :
    FoundWith r a before rest (fuseWith r a before rest).run := by
  induction rest generalizing before with
  | nil => exact .stable (by simp)
  | cons b rest ih =>
    rw [fuseWith, Ideal.run_bind]
    cases hc : (combine r a b).run with
    | apart => exact (ih (before ++ [b])).cons hc
    | empty => exact .empty (List.mem_cons_self ..) hc
    | into t =>
      have hfused : FoundWith r a before (b :: rest) (.fused (t :: (before ++ [] ++ rest))) :=
        .fused rfl hc
      simpa using hfused

/-- The search goes through the members in order; those before the pair stay where they are. -/
theorem fuseFirst_found (r : Rules (Ideal h)) (before ms : List Ty) :
    (fuseFirst r before ms).run = .stable ∧ Found r ms .stable ∨
      (fuseFirst r before ms).run = .empty ∧ Found r ms .empty ∨
      ∃ fused, (fuseFirst r before ms).run = .fused (before ++ fused) ∧ Found r ms (.fused fused) := by
  induction ms generalizing before with
  | nil => exact .inl ⟨rfl, .stable .nil⟩
  | cons a rest ih =>
    rw [fuseFirst, Ideal.run_bind]
    have hwith := fuseWith_found r a [] rest
    -- the first member combines with a later one, or the search goes on behind it
    cases hrun : (fuseWith r a [] rest).run with
    | stable =>
      rw [hrun] at hwith
      cases hwith with
      | stable hapart =>
        rcases ih (before ++ [a]) with ⟨heq, hf⟩ | ⟨heq, hf⟩ | ⟨fused, heq, hf⟩
        · cases hf with
          | stable hpair => exact .inl ⟨heq, .stable (.cons hapart hpair)⟩
        · cases hf with
          | empty hsub hc => exact .inr (.inl ⟨heq, .empty (hsub.cons _) hc⟩)
        · refine .inr (.inr ⟨a :: fused, by simpa using heq, ?_⟩)
          cases hf with
          | @fused first between after b c t hms hc =>
            subst hms
            have hfused : Found r (a :: first ++ b :: (between ++ c :: after))
                (.fused (a :: first ++ t :: (between ++ after))) := .fused rfl hc
            exact hfused
    | empty =>
      rw [hrun] at hwith
      cases hwith with
      | empty hb hc => exact .inr (.inl ⟨rfl, .empty ((List.singleton_sublist.2 hb).cons_cons _) hc⟩)
    | fused members =>
      rw [hrun] at hwith
      refine .inr (.inr ⟨members, rfl, ?_⟩)
      cases hwith with
      | @fused between after b t hrest hc =>
        subst hrest
        have hfused : Found r ([] ++ a :: (between ++ b :: after))
            (.fused ([] ++ t :: (between ++ after))) := .fused rfl hc
        exact hfused

/-- One round of fusing. -/
def Fuses (r : Rules (Ideal h)) (ms ms' : List Ty) : Prop := Found r ms (.fused ms')

theorem Fuses.length {ms ms' : List Ty} (hf : Fuses r ms ms') : ms.length = ms'.length + 1 := by
  cases hf with
  | fused hms hc =>
    subst hms
    simp
    omega

/-- What the combination of two members inherits from them is kept by fusing. -/
theorem Fuses.forall {P : Ty → Prop}
    (hP : ∀ a b t, P a → P b → (combine r a b).run = .into t → P t) {ms ms' : List Ty}
    (hf : Fuses r ms ms') (hms : ∀ m ∈ ms, P m) : ∀ m ∈ ms', P m := by
  cases hf with
  | @fused before between after a b t heq hc =>
    subst heq
    have ht : P t := hP a b t (hms a (by simp)) (hms b (by simp)) hc
    intro m hm
    rcases (by simpa using hm : m ∈ before ∨ m = t ∨ m ∈ between ∨ m ∈ after) with
      hm | rfl | hm | hm
    · exact hms m (by simp [hm])
    · exact ht
    · exact hms m (by simp [hm])
    · exact hms m (by simp [hm])

/-- What fusing all members can come to: a chain of rounds ends with members no two of which combine,
or with two that exclude each other. -/
inductive Settled (r : Rules (Ideal h)) : List Ty → Option (List Ty) → Prop where
  | done {ms : List Ty} (hapart : ms.Pairwise fun a b => (combine r a b).run = .apart) :
    Settled r ms (some ms)
  | empty {ms : List Ty} {a b : Ty} (hsub : [a, b].Sublist ms)
    (hc : (combine r a b).run = .empty) : Settled r ms none
  | round {ms ms' : List Ty} {result : Option (List Ty)} (hf : Fuses r ms ms')
    (hs : Settled r ms' result) : Settled r ms result

/-- As many rounds as there are members suffice, since each takes one away. -/
theorem fuseAll_settled (r : Rules (Ideal h)) (rounds : Nat) (ms : List Ty)
    (hr : ms.length ≤ rounds) : Settled r ms (fuseAll r rounds ms).run := by
  induction rounds generalizing ms with
  | zero =>
    obtain rfl : ms = [] := List.length_eq_zero_iff.1 (by omega)
    exact .done .nil
  | succ n ih =>
    rw [fuseAll, Ideal.run_bind]
    rcases fuseFirst_found r [] ms with ⟨heq, hf⟩ | ⟨heq, hf⟩ | ⟨fused, heq, hf⟩
    · rw [heq]
      cases hf with
      | stable hapart => exact .done hapart
    · rw [heq]
      cases hf with
      | empty hsub hc => exact .empty hsub hc
    · rw [heq]
      have hlen := Fuses.length hf
      exact .round hf (ih fused (by omega))

theorem Settled.forall {P : Ty → Prop}
    (hP : ∀ a b t, P a → P b → (combine r a b).run = .into t → P t) {ms ms' : List Ty}
    {result : Option (List Ty)} (hs : Settled r ms result) (hms : ∀ m ∈ ms, P m)
    (hresult : result = some ms') : ∀ m ∈ ms', P m := by
  induction hs with
  | done _ =>
    cases hresult
    exact hms
  | empty _ _ => simp at hresult
  | round hf _ ih => exact ih (hf.forall hP hms) hresult

/-- No two of the members that fusing ends with combine. -/
theorem Settled.apart {ms ms' : List Ty} {result : Option (List Ty)} (hs : Settled r ms result)
    (hresult : result = some ms') : ms'.Pairwise fun a b => (combine r a b).run = .apart := by
  induction hs with
  | done hapart =>
    cases hresult
    exact hapart
  | empty _ _ => simp at hresult
  | round _ _ ih => exact ih hresult

/-! ## Intersections -/

theorem interOf_cases (h : Hierarchy) (ms : List Ty) :
    ms = [] ∧ (interOf ms : Ideal h Ty).run = .unknown ∨
      (∃ m, ms = [m] ∧ (interOf ms : Ideal h Ty).run = m) ∨
      2 ≤ ms.length ∧ (interOf ms : Ideal h Ty).run = .inter (Ty.sortByKey ms) := by
  match ms with
  | [] => exact .inl ⟨rfl, rfl⟩
  | [m] => exact .inr (.inl ⟨m, rfl, rfl⟩)
  | _ :: _ :: _ => exact .inr (.inr ⟨by simp, rfl⟩)

/-- How an intersection comes about. -/
inductive Met (r : Rules (Ideal h)) (ts : List Ty) : Ty → Prop where
  | never {t : Ty} (ht : t ∈ ts) (hn : Ty.Conjunct .never t) : Met r ts .never
  | spread {flat us before after : List Ty} (hp : Ty.conjunctsAll ts = some flat)
    (hflat : Ty.dedup flat = before ++ .union us :: after) :
    Met r ts (h.union (us.map fun u => (r.intersect (u :: (before ++ after))).run))
  | excluded {flat : List Ty} (hp : Ty.conjunctsAll ts = some flat)
    (hu : ∀ x ∈ Ty.dedup flat, x.isUnion = false) (hs : Settled r (Ty.dedup flat) none) :
    Met r ts .never
  | settled {flat members : List Ty} (hp : Ty.conjunctsAll ts = some flat)
    (hu : ∀ x ∈ Ty.dedup flat, x.isUnion = false)
    (hs : Settled r (Ty.dedup flat) (some members)) : Met r ts (interOf members : Ideal h Ty).run

theorem intersectStep_met (r : Rules (Ideal h)) (ts : List Ty) :
    Met r ts (intersectStep r ts).run := by
  rw [intersectStep]
  cases hflat : Ty.conjunctsAll ts with
  | none =>
    obtain ⟨t, ht, hn⟩ := Ty.parted_of_conjunctsAll hflat
    exact .never ht hn
  | some flat =>
    cases hfirst : Ty.firstUnion? (Ty.dedup flat) with
    | some found =>
      obtain ⟨us, others⟩ := found
      obtain ⟨before, after, heq, rfl⟩ := Ty.firstUnion?_some hfirst
      simp only [hfirst, Ideal.run_bind, Ideal.run_mapM, Ideal.run_union]
      exact .spread hflat heq
    | none =>
      have hu (x) (hx : x ∈ Ty.dedup flat) := Ty.firstUnion?_none hfirst hx
      have hsettled := fuseAll_settled r (Ty.dedup flat).length (Ty.dedup flat) (Nat.le_refl _)
      simp only [hfirst, Ideal.run_bind]
      cases hfuse : (fuseAll r (Ty.dedup flat).length (Ty.dedup flat)).run with
      | none =>
        rw [hfuse] at hsettled
        exact .excluded hflat hu hsettled
      | some members =>
        rw [hfuse] at hsettled
        exact .settled hflat hu hsettled

end Rules
end FlowTyping
