import FlowTyping.Proofs.Relation.Gauge
import FlowTyping.Proofs.Relation.Tracking

/-!
# Questions in a universe that holds anything

A question about lucid entries has the plain answer in every coherent universe, whatever else is kept there, and
it does not run out of steps. Nothing has to be looked up by a key that could be mistaken: properties of lucid
entries are entries or numbers, and where these are met the result is again a number or what was there before.
Questions about other entries are followed, too, since they ask about lucid ones on the way. Of them it is only
shown that the universe stays coherent.

* **`Rules.Careful`** — answers that keep the universe coherent, and that are right about lucid entries. One lemma
  for each rule, and **`Rules.Careful.next`**, by which the rules are careful on rank one more.
* **`Rules.careful_upTo`** — the answers of any number of steps are careful.
-/

namespace FlowTyping

open Ty

namespace Universe

variable {u v : Universe} {ts : List Ty}

/-- The types can be met without making up a type: they are the members of an entry, or one of two is `number`. -/
structure Calm (u : Universe) (ts : List Ty) : Prop where
  lucid : ∀ t ∈ ts, Lucid t
  met : u.Keeps (.inter ts) ∨ ∃ a b, ts = [a, b] ∧ Level [a, b]

theorem Calm.of_level {a b : Ty} (hab : Level [a, b]) : u.Calm [a, b] := ⟨hab.lucid, .inr ⟨a, b, rfl, hab⟩⟩

/-- What comes of the meet is an entry or the only type with its key. -/
theorem Calm.sole_or_keeps (hts : u.Calm ts) (hu : u.Coherent) (hspent : u.spent = false) :
    Sole (noClasses.intersect ts) ∨ u.Keeps (noClasses.intersect ts) := by
  rcases hts.met with ht | ⟨a, b, rfl, hab⟩
  · rw [hu.intersect_members hspent ht (.intro trivial hts.lucid)]
    exact .inr ht
  · exact .inl hab.numeric.sole

theorem Calm.onward (hts : u.Calm ts) (huv : u.Onward v) : v.Calm ts := ⟨hts.lucid, hts.met.imp_left huv.keeps⟩

/-- Members that do not combine are no unions, and one of them at most is a shape. -/
theorem Standing.mixed (hts : Standing ts) (hlucid : ∀ t ∈ ts, Lucid t) :
    Rules.Mixed ts ∧ ∀ t ∈ ts, t.isUnion = false := by
  refine ⟨⟨hlucid, ?_⟩, fun t ht => (isMember_iff.1 (hts.form.member t ht).1).1⟩
  have hpairs : ts.Pairwise fun a b => ¬ (a.isObject = true ∧ b.isObject = true) := by
    refine hts.settled.imp_of_mem fun {a b} ha hb hc ho => ?_
    rcases hc with hc | hc
    · exact Hierarchy.not_apart_of_isObject (hlucid a ha) (hlucid b hb) ho hc
    · exact Hierarchy.not_apart_of_isObject (hlucid b hb) (hlucid a ha) ho.symm hc
  clear hts hlucid
  induction hpairs with
  | nil => simp
  | @cons a ts hfirst _ ih =>
    cases ha : a.isObject with
    | false => simpa [List.countP_cons, ha] using ih
    | true =>
      have hnone : ts.countP Ty.isObject = 0 := List.countP_eq_zero.2 fun b hb ho => hfirst b hb ⟨ha, ho⟩
      simp [ha, hnone]

/-- A lucid entry that is no union comes apart into members one of which at most is a shape. -/
theorem Coherent.mixed_conjuncts (hu : u.Coherent) (hspent : u.spent = false) {t : Ty} (ht : u.Keeps t)
    (hlucid : Lucid t) {flat : List Ty} (hflat : conjuncts t = some flat) :
    (Rules.Mixed flat ∧ ∀ m ∈ flat, m.isUnion = false) ∨ ∃ us, t = .union us ∧ flat = [t] := by
  have hself (hunion : t.isUnion = false) (hone : flat = [t]) : Rules.Mixed flat ∧ ∀ m ∈ flat, m.isUnion = false := by
    subst hone
    refine ⟨⟨by simpa using hlucid, ?_⟩, by simpa using hunion⟩
    rw [List.countP_singleton]
    split <;> simp
  cases t with
  | never => simp [conjuncts] at hflat
  | unknown =>
    obtain rfl : [] = flat := by simpa [conjuncts] using hflat
    exact .inl ⟨⟨by simp, by simp⟩, by simp⟩
  | union us =>
    obtain rfl : [_] = flat := by simpa [conjuncts] using hflat
    exact .inr ⟨us, rfl, rfl⟩
  | inter ms =>
    have hms (m) (hm : m ∈ ms) : Lucid m := hlucid.part hm
    have hstanding := hu.standing hspent ht hms
    rw [conjuncts, Hierarchy.conjunctsAll_of_interForm hstanding.form] at hflat
    obtain rfl := Option.some.inj hflat
    exact .inl (hstanding.mixed hms)
  | _ => exact .inl (hself rfl (by simpa [conjuncts] using hflat.symm))

/-- What can be met comes apart into members one of which at most is a shape, or into a union and `number`. -/
theorem Calm.parted (hts : u.Calm ts) (hu : u.Coherent) (hspent : u.spent = false) (hkept : ∀ t ∈ ts, u.Keeps t)
    {flat : List Ty} (hflat : conjunctsAll ts = some flat) :
    (Rules.Mixed (dedup flat) ∧ ∀ m ∈ dedup flat, m.isUnion = false) ∨
      ∃ us, Lucid (.union us) ∧ firstUnion? (dedup flat) = some (us, [.number]) := by
  have hdedup (h : Rules.Mixed flat ∧ ∀ m ∈ flat, m.isUnion = false) :
      Rules.Mixed (dedup flat) ∧ ∀ m ∈ dedup flat, m.isUnion = false :=
    ⟨⟨fun m hm => h.1.lucid m (mem_of_mem_dedup hm), Nat.le_trans ((dedup_sublist flat).countP_le) h.1.object⟩,
      fun m hm => h.2 m (mem_of_mem_dedup hm)⟩
  rcases hts.met with ht | ⟨a, b, rfl, hab⟩
  · rcases hu.mixed_conjuncts hspent ht (.intro trivial hts.lucid) (by rwa [conjuncts]) with h | ⟨us, h, -⟩
    · exact .inl (hdedup h)
    · cases h
  -- one of two is a number, and the other one is what it is alone
  · have hother {x : Ty} {cx : List Ty} (hx : x ∈ [a, b]) (hopen : conjuncts x = some cx)
        (hperm : flat.Perm (.number :: cx))
        (hspread : ∀ us, x = .union us → firstUnion? (dedup flat) = some (us, [.number])) :
        (Rules.Mixed (dedup flat) ∧ ∀ m ∈ dedup flat, m.isUnion = false) ∨
          ∃ us, Lucid (.union us) ∧ firstUnion? (dedup flat) = some (us, [.number]) := by
      rcases hu.mixed_conjuncts hspent (hkept x hx) (hts.lucid x hx) hopen with ⟨hmixed, hunion⟩ | ⟨us, rfl, -⟩
      · refine .inl (hdedup ⟨.perm ⟨?_, ?_⟩ hperm.symm, fun m hm => ?_⟩)
        · exact List.forall_mem_cons.2 ⟨Numeric.number.lucid, hmixed.lucid⟩
        · exact hmixed.object
        · rcases List.mem_cons.1 (hperm.mem_iff.1 hm) with rfl | hm
          · rfl
          · exact hunion m hm
      · exact .inr ⟨us, hts.lucid _ hx, hspread us rfl⟩
    have hpair {x y : Ty} {cx cy : List Ty} (hx : conjuncts x = some cx) (hy : conjuncts y = some cy) :
        conjunctsAll [x, y] = some (cx ++ cy) := by simp [conjunctsAll, hx, hy]
    have hkey (us : List Ty) : (Ty.union us).key ≠ Ty.number.key := fun h =>
      absurd (sole_of_atom (by simp [atoms]) _ h) (by simp)
    have hnumber : conjuncts .number = some [.number] := rfl
    rcases (List.pairwise_cons.1 hab.number).1 b (by simp) with rfl | rfl
    · cases hopen : conjuncts b with
      | none => simp [conjunctsAll, hnumber, hopen] at hflat
      | some cb =>
        obtain rfl := Option.some.inj ((hpair hnumber hopen).symm.trans hflat)
        refine hother (by simp) hopen (.refl _) ?_
        rintro us rfl
        obtain rfl : [.union us] = cb := by simpa [conjuncts] using hopen
        rw [List.singleton_append, Hierarchy.dedup_pair, if_neg (hkey us).symm]
        rfl
    · cases hopen : conjuncts a with
      | none => simp [conjunctsAll, hnumber, hopen] at hflat
      | some ca =>
        obtain rfl := Option.some.inj ((hpair hopen hnumber).symm.trans hflat)
        refine hother (by simp) hopen (List.perm_append_singleton _ _) ?_
        rintro us rfl
        obtain rfl : [.union us] = ca := by simpa [conjuncts] using hopen
        rw [List.singleton_append, Hierarchy.dedup_pair, if_neg (hkey us)]
        rfl

/-- The computation decides something about two entries, right if they are lucid, and within the steps if these
suffice. -/
abbrev Judges (u : Universe) (a b : Ty) (R : Prop) (x : InUniverse Bool) (y : Ideal noClasses Bool) : Prop :=
  u.Decides (Lucid a ∧ Lucid b) ((Lucid a ∧ Lucid b) ∧ R) x y

end Universe

namespace Rules

open Universe

/-- As many steps suffice for the question. -/
def SubtypeIn (n k : Nat) (a b : Ty) : Prop := a.Shallow n ∧ b.Shallow n ∧ subtypeRank n a b < k

/-- As many steps suffice for the question. -/
def DisjointIn (n k : Nat) (a b : Ty) : Prop := a.Shallow n ∧ b.Shallow n ∧ disjointRank n a b < k

/-- As many steps suffice for the question. -/
def PropertyIn (n k : Nat) (t : Ty) : Prop := t.Shallow n ∧ propertyRank n t < k

/-- As many steps suffice for the question. -/
def IntersectIn (n k : Nat) (ts : List Ty) : Prop := (∀ t ∈ ts, t.Shallow n) ∧ intersectRank n ts < k

/-- Answers about entries that keep the universe coherent. About lucid ones they are right, unless steps ran out,
which they do not where they suffice. -/
structure Careful (n k : Nat) (r : Rules InUniverse) : Prop where
  subtype : ∀ {u : Universe} {a b : Ty}, u.Keeps a → u.Keeps b →
    u.Judges a b (SubtypeIn n k a b) (r.subtype a b)
      (noClasses.answers.subtype a b)
  disjoint : ∀ {u : Universe} {a b : Ty}, u.Keeps a → u.Keeps b →
    u.Judges a b (DisjointIn n k a b) (r.disjoint a b)
      (noClasses.answers.disjoint a b)
  property : ∀ {u : Universe} {t : Ty} (name : Text), u.Keeps t →
    u.Tracks (Lucid t ∧ t.isUnion = false) ((Lucid t ∧ t.isUnion = false) ∧ PropertyIn n k t) (r.propertyOf t name)
      (noClasses.answers.propertyOf t name) fun v found => ∀ p ∈ found, v.Keeps p.type
  intersect : ∀ {u : Universe} {ts : List Ty}, (∀ t ∈ ts, u.Keeps t) →
    u.Tracks (u.Calm ts) (u.Calm ts ∧ IntersectIn n k ts) (r.intersect ts) (noClasses.answers.intersect ts) Keeps

namespace Careful

variable {n k d : Nat} {r : Rules InUniverse} {u : Universe} {a b s t : Ty} {C R : Prop}

/-! ## Subtyping -/

/-- A question that another one asks. -/
theorem asks_subtype (hf : Careful n k r) (hs : u.Keeps s) (ht : u.Keeps t)
    (hlucid : u.spent = false → C → Lucid s ∧ Lucid t) (hrank : u.spent = false → C → R → SubtypeIn n k s t) :
    u.Decides C (C ∧ R) (r.subtype s t) (noClasses.answers.subtype s t) :=
  (hf.subtype hs ht).weaken hlucid fun hspent h => ⟨hlucid hspent h.1, hrank hspent h.1 h.2⟩

/-- Shapes, tuples and functions are compared by their parts, a layer below. -/
theorem subtype_below (hf : Careful n k r) (hs : u.Keeps s) (ht : u.Keeps t)
    (hlucid : u.spent = false → Lucid a ∧ Lucid b → Lucid s ∧ Lucid t)
    (hbelow : u.spent = false → Lucid a ∧ Lucid b → a.Shallow n → b.Shallow n →
      s.Bounded n (max a.depth b.depth - 1) ∧ t.Bounded n (max a.depth b.depth - 1))
    (hd : 1 ≤ max a.depth b.depth) :
    u.Judges a b (SubtypeIn n (k + 1) a b) (r.subtype s t)
      (noClasses.answers.subtype s t) := by
  refine hf.asks_subtype hs ht hlucid fun hspent hC ⟨ha, hb, hk⟩ => ?_
  obtain ⟨hs, ht⟩ := hbelow hspent hC ha hb
  exact ⟨hs.shallow, ht.shallow, Nat.lt_of_lt_of_le (subtypeRank_below hs ht hd) (Nat.le_of_lt_succ hk)⟩

theorem objectSubtype (hf : Careful n k r) {tag : String} {props : List (Property Ty)} (ha : u.Keeps a)
    (hb : u.Keeps (.object tag props)) (hplain : a.isUnion = false) :
    u.Judges a (.object tag props) (SubtypeIn n (k + 1) a (.object tag props))
      (objectSubtype r a tag props) (objectSubtype noClasses.answers a tag props) := by
  have hd : 1 ≤ (Ty.object tag props).depth := one_le_depth rfl
  refine .of_coherent fun u hu huv => ?_
  replace ha := huv.keeps ha
  replace hb := huv.keeps hb
  refine tracks_objectSubtype (fun hC => hC.2.own.1) (tracks_propsSubtype (fun name => ?_) ?_)
  · refine (hf.property name ha).weaken (fun _ hC => ⟨hC.1, hplain⟩) fun _ h => ?_
    obtain ⟨hC, hshallow, -, hk⟩ := h
    refine ⟨⟨hC.1, hplain⟩, hshallow, ?_⟩
    exact Nat.lt_of_lt_of_le (propertyRank_lt_subtypeRank a tag props) (Nat.le_of_lt_succ hk)
  · intro pb hpb v pa huv hpa hfound
    have hpart : pb.type ∈ (Ty.object tag props).parts := List.mem_map_of_mem hpb
    refine hf.subtype_below hpa (huv.keeps (hu.part hb _ hpart)) (fun hspent hC => ⟨?_, hC.2.part hpart⟩)
      (fun hspent hC hsa hsb => ?_) (by omega)
    · replace hfound := hfound hspent hC
      rw [Ideal.run_answers_propertyOf] at hfound
      refine Hierarchy.lucid_propertyOf hC.1 hplain (fun ms heq => ?_) hfound
      subst heq
      have hstanding := hu.standing (huv.unspent hspent) ha fun m hm => hC.1.part hm
      exact ⟨hstanding.form.member, hstanding.settled⟩
    · have hbounded := (noClasses.answers_tame n).property ⟨hsa, Nat.le_refl _⟩ (hfound hspent hC)
      exact ⟨hbounded.mono (by omega), below_right hsb rfl hpart⟩

theorem plainSubtype (hf : Careful n k r) (ha : u.Keeps a) (hb : u.Keeps b) (hplain : a.isUnion = false) :
    u.Judges a b (SubtypeIn n (k + 1) a b) (plainSubtype r a b)
      (plainSubtype noClasses.answers a b) := by
  refine .of_coherent fun u hu huv => ?_
  replace ha := huv.keeps ha
  replace hb := huv.keeps hb
  rw [Rules.plainSubtype.eq_def r, Rules.plainSubtype.eq_def noClasses.answers]
  split
  · exact hf.objectSubtype ha hb hplain
  · rename_i elemsA restA elemsB restB
    have hd := one_le_depth (a := .tuple elemsA restA) rfl
    refine tracks_elemsSubtype fun s hs t ht => ?_
    exact hf.subtype_below (hu.part ha s hs) (hu.part hb t ht) (fun _ hC => ⟨hC.1.part hs, hC.2.part ht⟩)
      (fun _ _ hsa hsb => ⟨below_left hsa rfl hs, below_right hsb rfl ht⟩) (by omega)
  · rename_i paramsA retA paramsB retB
    have hd := one_le_depth (a := .function paramsA retA) rfl
    have hpartA {p : Param Ty} (hp : p ∈ paramsA) : p.type ∈ (Ty.function paramsA retA).parts :=
      List.mem_append_left _ (List.mem_map_of_mem hp)
    have hpartB {p : Param Ty} (hp : p ∈ paramsB) : p.type ∈ (Ty.function paramsB retB).parts :=
      List.mem_append_left _ (List.mem_map_of_mem hp)
    have hretA : retA ∈ (Ty.function paramsA retA).parts := by simp [parts]
    have hretB : retB ∈ (Ty.function paramsB retB).parts := by simp [parts]
    -- parameters are asked about the other way round
    refine tracks_functionSubtype (fun pa hpa pb hpb => ?_) ?_
    · refine hf.subtype_below (hu.keeps_argType (hu.part hb _ (hpartB hpb)))
        (hu.keeps_argType (hu.part ha _ (hpartA hpa)))
        (fun _ hC => ⟨.argType (hC.2.part (hpartB hpb)), .argType (hC.1.part (hpartA hpa))⟩)
        (fun _ _ hsa hsb => ⟨argType_bounded (below_right hsb rfl (hpartB hpb)),
          argType_bounded (below_left hsa rfl (hpartA hpa))⟩) (by omega)
    · exact hf.subtype_below (hu.part ha _ hretA) (hu.part hb _ hretB)
        (fun _ hC => ⟨hC.1.part hretA, hC.2.part hretB⟩)
        (fun _ _ hsa hsb => ⟨below_left hsa rfl hretA, below_right hsb rfl hretB⟩) (by omega)
  all_goals exact .pure (fun _ _ => rfl) fun _ _ _ => trivial

/-- The parts that a question opens on its left side. -/
theorem subtype_left (hf : Careful n k r) (hu : u.Coherent) (ha : u.Keeps a) (hb : u.Keeps b) (ho : a.opens = true)
    (hs : s ∈ a.parts) :
    u.Judges a b (SubtypeIn n (k + 1) a b) (r.subtype s b)
      (noClasses.answers.subtype s b) :=
  hf.asks_subtype (hu.part ha s hs) hb (fun _ hC => ⟨hC.1.part hs, hC.2⟩) fun _ _ ⟨hsa, hsb, hk⟩ =>
    ⟨hsa.part hs, hsb, Nat.lt_of_lt_of_le (subtypeRank_left ho hs) (Nat.le_of_lt_succ hk)⟩

/-- The parts that a question opens on its right side. -/
theorem subtype_right (hf : Careful n k r) (hu : u.Coherent) (ha : u.Keeps a) (hb : u.Keeps b) (ho : b.opens = true)
    (ht : t ∈ b.parts) :
    u.Judges a b (SubtypeIn n (k + 1) a b) (r.subtype a t)
      (noClasses.answers.subtype a t) :=
  hf.asks_subtype ha (hu.part hb t ht) (fun _ hC => ⟨hC.1, hC.2.part ht⟩) fun _ _ ⟨hsa, hsb, hk⟩ =>
    ⟨hsa, hsb.part ht, Nat.lt_of_lt_of_le (subtypeRank_right ho ht) (Nat.le_of_lt_succ hk)⟩

theorem rightSubtype (hf : Careful n k r) (ha : u.Keeps a) (hb : u.Keeps b) (hplain : a.isUnion = false) :
    u.Judges a b (SubtypeIn n (k + 1) a b) (rightSubtype r a b)
      (rightSubtype noClasses.answers a b) := by
  refine .of_coherent fun u hu huv => ?_
  replace ha := huv.keeps ha
  replace hb := huv.keeps hb
  have hyes {v : Universe} : v.Judges a b (SubtypeIn n (k + 1) a b)
      (pure true) (pure true) := .pure (fun _ _ => rfl) fun _ _ _ => trivial
  -- every question goes on with the parts of one side, which lie in the same layer
  have hleft (ho : a.opens = true) : u.Judges a b (SubtypeIn n (k + 1) a b)
      (a.parts.anyM fun s => r.subtype s b) (a.parts.anyM fun s => noClasses.answers.subtype s b) :=
    .anyM fun s hs => hf.subtype_left hu ha hb ho hs
  have hright (ho : b.opens = true) : u.Judges a b (SubtypeIn n (k + 1) a b)
      (b.parts.anyM fun t => r.subtype a t) (b.parts.anyM fun t => noClasses.answers.subtype a t) :=
    .anyM fun t ht => hf.subtype_right hu ha hb ho ht
  rw [Rules.rightSubtype.eq_def r, Rules.rightSubtype.eq_def noClasses.answers]
  split
  · exact (hright rfl).cond hyes (hleft rfl)
  · exact hright rfl
  · exact (hleft rfl).cond hyes (hf.objectSubtype ha hb hplain)
  · exact hleft rfl
  · exact hf.plainSubtype ha hb hplain

/-- Type parameters are not lucid, so that only entries are followed here. -/
theorem varSubtype (hf : Careful n k r) {name : String} {bound : Option Ty} (ha : u.Keeps (.var name bound))
    (hb : u.Keeps b) :
    u.Judges (.var name bound) b (SubtypeIn n (k + 1) (.var name bound) b)
      (varSubtype r (.var name bound) bound b) (varSubtype noClasses.answers (.var name bound) bound b) := by
  refine .of_coherent fun u hu huv => ?_
  replace ha := huv.keeps ha
  replace hb := huv.keeps hb
  have hanswer {v : Universe} (answer : Bool) : v.Judges (.var name bound) b (SubtypeIn n (k + 1) (.var name bound) b)
      (pure answer) (pure answer) := .pure (fun _ _ => rfl) fun _ _ _ => trivial
  have hright {bs : List Ty} (hunion : b = .union bs) :
      u.Judges (.var name bound) b (SubtypeIn n (k + 1) (.var name bound) b)
        (bs.anyM fun t => r.subtype (.var name bound) t)
        (bs.anyM fun t => noClasses.answers.subtype (.var name bound) t) := by
    subst hunion
    exact .anyM fun t ht => hf.subtype_right hu ha hb rfl ht
  rw [Rules.varSubtype.eq_def r, Rules.varSubtype.eq_def noClasses.answers]
  cases bound with
  | none =>
    cases b with
    | union bs => exact (hright rfl).cond (hanswer true) (hanswer false)
    | _ => exact hanswer false
  | some c =>
    have hleft := hf.subtype_left hu ha hb rfl (s := c) (by simp [parts])
    cases b with
    | union bs => exact (hright rfl).cond (hanswer true) hleft
    | _ => exact hleft

theorem subtypeRule (hf : Careful n k r) (ha : u.Keeps a) (hb : u.Keeps b) :
    u.Judges a b (SubtypeIn n (k + 1) a b) (subtypeRule r a b)
      (subtypeRule noClasses.answers a b) := by
  refine .of_coherent fun u hu huv => ?_
  replace ha := huv.keeps ha
  replace hb := huv.keeps hb
  have hanswer (answer : Bool) : u.Judges a b (SubtypeIn n (k + 1) a b)
      (pure answer) (pure answer) := .pure (fun _ _ => rfl) fun _ _ _ => trivial
  rw [Rules.subtypeRule.eq_def r, Rules.subtypeRule.eq_def noClasses.answers]
  split
  · exact hanswer true
  · exact hanswer true
  · exact hanswer false
  · exact hanswer false
  · exact .allM fun s hs => hf.subtype_left hu ha hb rfl hs
  · exact .allM fun t ht => hf.subtype_right hu ha hb rfl ht
  · exact hf.varSubtype ha hb
  · rename_i hunion _ _ _ _
    refine hf.rightSubtype ha hb ?_
    cases a with
    | union as => exact absurd rfl (hunion as)
    | _ => rfl

theorem subtypeStep (hf : Careful n k r) (ha : u.Keeps a) (hb : u.Keeps b) :
    u.Judges a b (SubtypeIn n (k + 1) a b) (subtypeStep r a b)
      (noClasses.answers.subtype a b) := by
  rw [Rules.subtypeStep]
  dsimp only
  split
  · rename_i hkey
    exact .pure (fun _ _ => (noClasses.subtype_of_key_eq hkey).symm) fun _ _ _ => trivial
  · rename_i hkey
    refine (tracks_answered? ha hb (pure none)).aside fun v known _ huv hknown => ?_
    cases known with
    | some answer => exact .pure (fun hspent hC => hknown hspent hC answer rfl) fun _ _ _ => trivial
    | none =>
      -- nothing is remembered, so the rule decides, and what it says is remembered from now on
      have hrule := hf.subtypeRule (huv.keeps ha) (huv.keeps hb)
      have hplain : (Rules.subtypeRule noClasses.answers a b).run = noClasses.subtype a b := by
        rw [noClasses.subtype_knot, run_subtypeStep, decide_eq_false hkey, Bool.false_or]
      have hy : (Rules.subtypeRule noClasses.answers a b >>= fun answer => pure answer).run =
          (noClasses.answers.subtype a b).run := by rw [Ideal.run_bind, hplain]; rfl
      refine (hrule.bind fun w answer _ hvw _ hsame => ?_).congr hy
      refine (tracks_remember (hvw.keeps (huv.keeps ha)) (hvw.keeps (huv.keeps hb))
        (fun hspent hC => (hsame hspent hC).trans hplain) (pure ())).aside fun _ _ _ _ _ => ?_
      exact .pure (fun _ _ => rfl) fun _ _ _ => trivial

/-! ## Disjointness -/

/-- Shapes and tuples are compared by their parts, a layer below. -/
theorem disjoint_below (hf : Careful n k r) (hu : u.Coherent) (ha : u.Keeps a) (hb : u.Keeps b) (hl : a.layer = 1)
    (hl' : b.layer = 1) (hs : s ∈ a.parts) (ht : t ∈ b.parts) :
    u.Judges a b (DisjointIn n (k + 1) a b) (r.disjoint s t) (noClasses.answers.disjoint s t) := by
  have hd := one_le_depth hl
  refine (hf.disjoint (hu.part ha s hs) (hu.part hb t ht)).weaken
    (fun _ hC => ⟨hC.1.part hs, hC.2.part ht⟩) fun _ h => ?_
  obtain ⟨hC, hsa, hsb, hk⟩ := h
  have hs' := below_left (b := b) hsa hl hs
  have ht' := below_right (a := a) hsb hl' ht
  refine ⟨⟨hC.1.part hs, hC.2.part ht⟩, hs'.shallow, ht'.shallow, ?_⟩
  exact Nat.lt_of_lt_of_le (disjointRank_below hs' ht' (by omega)) (Nat.le_of_lt_succ hk)

theorem partsDisjoint (hf : Careful n k r) (ha : u.Keeps a) (hb : u.Keeps b) :
    u.Judges a b (DisjointIn n (k + 1) a b) (partsDisjoint r a b) (partsDisjoint noClasses.answers a b) := by
  refine .of_coherent fun u hu huv => ?_
  replace ha := huv.keeps ha
  replace hb := huv.keeps hb
  have hanswer (answer : Bool) : u.Judges a b (DisjointIn n (k + 1) a b) (pure answer) (pure answer) :=
    .pure (fun _ _ => rfl) fun _ _ _ => trivial
  rw [Rules.partsDisjoint.eq_def r, Rules.partsDisjoint.eq_def noClasses.answers]
  split
  · exact hanswer true
  · exact tracks_propsDisjoint fun pa hpa pb hpb =>
      hf.disjoint_below hu ha hb rfl rfl (List.mem_map_of_mem hpa) (List.mem_map_of_mem hpb)
  · split
    · exact hanswer true
    · exact tracks_elemsDisjoint fun ea hea eb heb => hf.disjoint_below hu ha hb rfl rfl
        (List.mem_append_left _ (List.mem_map_of_mem hea)) (List.mem_append_left _ (List.mem_map_of_mem heb))
  · exact hanswer false

theorem disjointStep (hf : Careful n k r) (ha : u.Keeps a) (hb : u.Keeps b) :
    u.Judges a b (DisjointIn n (k + 1) a b) (disjointStep r a b) (noClasses.answers.disjoint a b) := by
  refine Tracks.congr (y := Rules.disjointStep noClasses.answers a b) (.of_coherent fun u hu huv => ?_)
    (noClasses.disjoint_knot a b).symm
  replace ha := huv.keeps ha
  replace hb := huv.keeps hb
  have hanswer {v : Universe} (answer : Bool) :
      v.Judges a b (DisjointIn n (k + 1) a b) (pure answer) (pure answer) :=
    .pure (fun _ _ => rfl) fun _ _ _ => trivial
  have hrank := subtypeRank_lt_disjointRank n a b
  have hleft : u.Judges a b (DisjointIn n (k + 1) a b) (r.subtype a b) (noClasses.answers.subtype a b) :=
    hf.asks_subtype ha hb (fun _ hC => hC) fun _ _ ⟨hsa, hsb, hk⟩ => ⟨hsa, hsb, by omega⟩
  have hright : u.Judges a b (DisjointIn n (k + 1) a b) (r.subtype b a) (noClasses.answers.subtype b a) :=
    hf.asks_subtype hb ha (fun _ hC => hC.symm) fun _ _ ⟨hsa, hsb, hk⟩ => ⟨hsb, hsa, by omega⟩
  rw [Rules.disjointStep.eq_def r, Rules.disjointStep.eq_def noClasses.answers]
  split
  · exact hanswer _
  · split
    · exact hanswer true
    · split
      -- a union is taken apart, and the rank of its members is less even within the layer
      · rename_i hunion
        refine .allM fun s hs => .allM fun t ht => ?_
        refine (hf.disjoint (hu.keeps_member ha hs) (hu.keeps_member hb ht)).weaken
          (fun _ hC => ⟨hC.1.member hs, hC.2.member ht⟩) fun _ h => ?_
        obtain ⟨hC, hsa, hsb, hk⟩ := h
        refine ⟨⟨hC.1.member hs, hC.2.member ht⟩, (members_le hsa hs).1, (members_le hsb ht).1, ?_⟩
        exact Nat.lt_of_lt_of_le (disjointRank_members hsa hsb hunion hs ht) (Nat.le_of_lt_succ hk)
      · refine hleft.cond (hanswer false) (hright.cond (hanswer false) ?_)
        split
        · exact hanswer true
        · exact hf.partsDisjoint ha hb

/-! ## Properties -/

/-- Types that stand level are met one after the other. -/
theorem meetProps (hf : Careful n k r) {merged : Property Ty} {ps : List (Property Ty)} (hm : u.Keeps merged.type)
    (hps : ∀ p ∈ ps, u.Keeps p.type) (hlevel : u.spent = false → C → Level (merged.type :: ps.map (·.type)))
    (hbounded : u.spent = false → C → R → ∀ t ∈ merged.type :: ps.map (·.type), t.Bounded n d)
    (hk : ∀ s t : Ty, s.Bounded n d → t.Bounded n d → R → intersectRank n [s, t] < k) :
    u.Tracks C (C ∧ R) (meetProps r merged ps) (meetProps noClasses.answers merged ps)
      fun v p => v.Keeps p.type := by
  induction ps generalizing merged u with
  | nil => exact .pure (fun _ _ => rfl) fun _ _ huv => huv.keeps hm
  | cons p ps ih =>
    have hpair (hspent : u.spent = false) (hC : C) : u.Calm [merged.type, p.type] :=
      .of_level (hlevel hspent hC).pair
    have hkept : ∀ t ∈ [merged.type, p.type], u.Keeps t := by simpa using ⟨hm, hps p (by simp)⟩
    have hboth (hspent : u.spent = false) (hC : C) (hR : R) : ∀ t ∈ [merged.type, p.type], t.Bounded n d := by
      have hb := hbounded hspent hC hR
      simpa using ⟨hb merged.type (by simp), hb p.type (by simp)⟩
    rw [Rules.meetProps, Rules.meetProps]
    refine ((hf.intersect hkept).weaken hpair fun hspent h => ⟨hpair hspent h.1, ?_⟩).bind
      fun v t _ huv ht hsame => ?_
    · have hb := hboth hspent h.1 h.2
      exact ⟨fun t ht => (hb t ht).shallow, hk _ _ (hb _ (by simp)) (hb _ (by simp)) h.2⟩
    · refine ih ht (fun q hq => huv.keeps (hps q (by simp [hq]))) (fun hspent hC => ?_) fun hspent hC hR => ?_
      -- what the two met in stands level with the others, and is bounded as they are
      · rw [hsame hspent hC, Ideal.run_answers_intersect]
        exact (hlevel (huv.unspent hspent) hC).intersect noClasses
      · have hmet := (noClasses.answers_tame n).intersect (hboth (huv.unspent hspent) hC hR)
        rw [← hsame hspent hC] at hmet
        refine List.forall_mem_cons.2 ⟨hmet, fun s hs => hbounded (huv.unspent hspent) hC hR s ?_⟩
        rw [List.map_cons]
        exact .tail _ (.tail _ hs)

theorem propertyStep (hf : Careful n k r) (name : Text) (ht : u.Keeps t) :
    u.Tracks (Lucid t ∧ t.isUnion = false) ((Lucid t ∧ t.isUnion = false) ∧ PropertyIn n (k + 1) t)
      (propertyStep r t name) (noClasses.answers.propertyOf t name) fun v found => ∀ p ∈ found, v.Keeps p.type := by
  refine Tracks.congr (y := Rules.propertyStep noClasses.answers t name) (.of_coherent fun u hu huv => ?_)
    (noClasses.propertyOf_knot t name).symm
  replace ht := huv.keeps ht
  have hnone {v : Universe} : v.Tracks (Lucid t ∧ t.isUnion = false)
      ((Lucid t ∧ t.isUnion = false) ∧ PropertyIn n (k + 1) t) (pure none) (pure none)
      fun v (found : Option (Property Ty)) => ∀ p ∈ found, v.Keeps p.type :=
    .pure (fun _ _ => rfl) fun _ _ _ => by simp
  have hsome {v : Universe} {p : Property Ty} (hp : v.Keeps p.type) : v.Tracks (Lucid t ∧ t.isUnion = false)
      ((Lucid t ∧ t.isUnion = false) ∧ PropertyIn n (k + 1) t) (pure (some p)) (pure (some p))
      fun v (found : Option (Property Ty)) => ∀ p ∈ found, v.Keeps p.type :=
    .pure (fun _ _ => rfl) fun _ _ hvw q hq => Option.some.inj hq ▸ hvw.keeps hp
  cases t with
  | object tag props =>
    cases hfind : findProp? props name with
    | none => simpa only [Rules.propertyStep, hfind] using hnone
    | some p =>
      simpa only [Rules.propertyStep, hfind] using
        hsome (hu.part ht _ (List.mem_map_of_mem (findProp?_some hfind).1))
  | tuple elems rest | string =>
    simp only [Rules.propertyStep]
    split
    · exact hsome (hu.atom (by simp [atoms]))
    · exact hnone
  | literal l =>
    cases l with
    | text value =>
      simp only [Rules.propertyStep]
      split
      · exact (tracks_literal _).bind fun v s _ _ hs _ => hsome hs
      · exact hnone
    | _ => exact hnone
  | var name bound =>
    cases bound with
    | none => exact hnone
    | some bound =>
      exact (hf.property _ (hu.part ht bound (by simp [parts]))).weaken (fun _ hC => hC.1.own.elim)
        fun _ hC => hC.1.1.own.elim
  | union ms =>
    -- the property of a union is made up, but nothing lucid asks for it
    have hmain : u.Tracks False False (Rules.propertyStep r (.union ms) name)
        (Rules.propertyStep noClasses.answers (.union ms) name) fun v found => ∀ p ∈ found, v.Keeps p.type := by
      refine (tracks_sharedProps fun m hm => (hf.property name (hu.part ht m hm)).weaken (fun _ => False.elim)
        fun _ => False.elim).bind fun v found _ _ hfound _ => ?_
      cases found with
      | none => exact .pure (fun _ _ => rfl) fun _ _ _ => by simp
      | some ps =>
        refine (tracks_union (by simpa using hfound ps rfl) fun _ => False.elim).bind fun w s _ _ hs _ => ?_
        exact .pure (fun _ _ => rfl) fun _ _ hvw q hq => Option.some.inj hq ▸ hvw.keeps hs
    exact hmain.weaken (fun _ hC => by simp [isUnion] at hC) fun _ hC => by simp [isUnion] at hC
  | inter ms =>
    have hstanding (hspent : u.spent = false) (hlucid : Lucid (.inter ms)) : Standing ms :=
      hu.standing hspent ht fun m hm => hlucid.part hm
    have hplain (hspent : u.spent = false) (hlucid : Lucid (.inter ms)) (m) (hm : m ∈ ms) :
        Lucid m ∧ m.isUnion = false :=
      ⟨hlucid.part hm, (isMember_iff.1 ((hstanding hspent hlucid).form.member m hm).1).1⟩
    refine (tracks_foundProps fun m (hm : m ∈ ms) => (hf.property name (hu.part ht m hm)).weaken
      (fun hspent hC => hplain hspent hC.1 m hm) fun hspent h => ?_).bind fun v found hv huv hfound hsame => ?_
    · obtain ⟨hC, hshallow, hk⟩ := h
      refine ⟨hplain hspent hC.1 m hm, hshallow.part hm, ?_⟩
      exact Nat.lt_of_lt_of_le (propertyRank_part (t := .inter ms) rfl hm) (Nat.le_of_lt_succ hk)
    · cases found with
      | nil => exact hnone
      | cons p ps =>
        rw [List.forall_mem_cons] at hfound
        refine (hf.meetProps (d := (Ty.inter ms).depth - 1) hfound.1 hfound.2 (fun hspent hC => ?_)
          (fun hspent hC hR => ?_) fun s t hs ht hR => ?_).bind fun w p _ _ hp _ => hsome hp
        · have hlucid (m) (hm : m ∈ ms) : Lucid m := hC.1.part hm
          obtain ⟨hform, hsettled⟩ := hstanding (huv.unspent hspent) hC.1
          have hlevel := Hierarchy.level_found hlucid hform.member hsettled name
          replace hsame := hsame hspent hC
          rw [run_foundProps] at hsame
          simp only [Ideal.run_answers_propertyOf] at hsame
          rwa [← hsame] at hlevel
        · rw [← List.map_cons, hsame hspent hC, run_foundProps]
          intro s hs
          obtain ⟨q, hq, rfl⟩ := List.mem_map.1 hs
          obtain ⟨m, hm, hq⟩ := List.mem_filterMap.1 hq
          have hm : m.Bounded n (Ty.inter ms).depth := Bounded.part (t := .inter ms) ⟨hR.1, Nat.le_refl _⟩ hm
          exact (noClasses.answers_tame n).property hm hq
        · exact Nat.lt_of_lt_of_le (intersectRank_lt_propertyRank hs ht) (Nat.le_of_lt_succ hR.2)
  | _ => exact hnone

/-! ## Intersections -/

/-- Shapes merge into a shape. Lucid ones always merge. -/
theorem mergeObjects (hf : Careful n k r) (ha : u.Keeps a) (hb : u.Keeps b) :
    u.Tracks False False (mergeObjects r a b) (mergeObjects noClasses.answers a b) fun v fusion =>
      (∀ t, fusion = .into t → v.Keeps t ∧ (a.isObject = true ∧ b.isObject = true) ∧ t.isObject = true) ∧
        (fusion = .apart → a.isObject = true ∧ b.isObject = true → Lucid a → ¬ Lucid b) := by
  refine .of_coherent fun u hu huv => ?_
  replace ha := huv.keeps ha
  replace hb := huv.keeps hb
  rw [Rules.mergeObjects.eq_def r]
  split
  · rename_i tagA propsA tagB propsB
    have hpartA (p) (hp : p ∈ propsA) : u.Keeps p.type := hu.part ha _ (List.mem_map_of_mem hp)
    have hpartB (p) (hp : p ∈ propsB) : u.Keeps p.type := hu.part hb _ (List.mem_map_of_mem hp)
    refine (tracks_hierarchy (pure noClasses)).aside fun v h _ huv _ => ?_
    cases htag : mergedTag h tagA tagB with
    | none =>
      -- lucid shapes have no tags, and so no tags that keep them apart
      refine .pure (fun _ => False.elim) fun _ _ _ => ⟨by simp, fun _ _ hla hlb => ?_⟩
      rw [hla.own.1, hlb.own.1] at htag
      simp [mergedTag] at htag
    | some tag =>
      have hmerged := tracks_mergedProps (C := False) (K := False) (fun pa hpa => huv.keeps (hpartA pa hpa))
        fun pa hpa pb hpb => (hf.intersect (show ∀ t ∈ [pa.type, pb.type], v.Keeps t by
          simpa using ⟨huv.keeps (hpartA pa hpa), huv.keeps (hpartB pb hpb)⟩)).weaken (fun _ => False.elim)
            fun _ => False.elim
      refine hmerged.aside fun w found _ hvw hfound => ?_
      cases found with
      | none => exact .pure (fun _ => False.elim) fun _ _ _ => by simp
      | some ps =>
        refine (tracks_object (C := False) (fun p hp => ?_) fun _ => False.elim).aside fun x t _ _ ht => ?_
        · rcases List.mem_append.1 hp with hp | hp
          · exact hfound ps rfl p hp
          · exact hvw.keeps (huv.keeps (hpartB p (List.mem_filter.1 hp).1))
        · refine .pure (fun _ => False.elim) fun y _ hxy => ⟨fun s hs => ?_, by simp⟩
          obtain rfl := Fusion.into.inj hs
          exact ⟨hxy.keeps ht.1, ⟨rfl, rfl⟩, ht.2⟩
  · rename_i hobject
    refine .pure (fun _ => False.elim) fun _ _ _ => ⟨by simp, fun _ ho => ?_⟩
    cases a with
    | object _ _ =>
      cases b with
      | object _ _ => exact absurd rfl (hobject _ _ _ _ rfl)
      | _ => simp [isObject] at ho
    | _ => simp [isObject] at ho

/-- Only shapes merge. -/
theorem mergeObjects_eq_pure {m : Type → Type} [TypeStore m] {r : Rules m}
    (hobject : ¬ (a.isObject = true ∧ b.isObject = true)) : Rules.mergeObjects r a b = pure .apart := by
  cases a with
  | object _ _ =>
    cases b with
    | object _ _ => exact absurd ⟨rfl, rfl⟩ hobject
    | _ => rfl
  | _ => rfl

theorem combine (hf : Careful n k r) (ha : u.Piece a) (hb : u.Piece b) :
    u.Tracks (Unmerged a b) (Unmerged a b ∧ (a.Bounded n d ∧ layerSteps n * d + (2 * n + 7) ≤ k) ∧
      b.Bounded n d ∧ layerSteps n * d + (2 * n + 7) ≤ k) (combine r a b) (combine noClasses.answers a b)
      (Combined a b) := by
  -- what is asked about lucid entries is answered right, also about two shapes
  have hasks {v : Universe} {R K : Prop} {s t : Ty} {x : InUniverse Bool} {y : Ideal noClasses Bool}
      (hx : v.Judges s t R x y) (hlucid : Unmerged a b → Lucid s ∧ Lucid t) (hrank : Unmerged a b → K → R) :
      v.Tracks (Unmerged a b) (Unmerged a b ∧ K) x y fun w answer =>
        w.spent = false → Lucid s → Lucid t → answer = y.run :=
    (hx.imp fun w answer _ _ _ hsame hspent hs ht => hsame hspent ⟨hs, ht⟩).weaken (fun _ hC => hlucid hC)
      fun _ h => ⟨hlucid h.1, hrank h.1 h.2⟩
  have hplain {x : Ty} (hx : u.Piece x) : x.isUnion = false ∧ x.isInter = false :=
    ⟨(isMember_iff.1 hx.member).1, hx.not_inter⟩
  have hrank (hbounds : (a.Bounded n d ∧ layerSteps n * d + (2 * n + 7) ≤ k) ∧
      b.Bounded n d ∧ layerSteps n * d + (2 * n + 7) ≤ k) : DisjointIn n k a b :=
    ⟨hbounds.1.1.shallow, hbounds.2.1.shallow, Nat.lt_of_lt_of_le
      (disjointRank_lt_of_plain ⟨hbounds.1.1, hplain ha⟩ ⟨hbounds.2.1, hplain hb⟩) hbounds.1.2⟩
  have hsub := subtypeRank_lt_disjointRank n a b
  have hinto {v : Universe} {K : Prop} {t : Ty} (ht : v.Keeps t) (heq : t = a ∨ t = b) :
      v.Tracks (Unmerged a b) K (pure (.into t)) (pure (.into t)) (Combined a b) := by
    refine .pure (fun _ _ => rfl) fun w _ hvw => ⟨fun s hs => ?_, by simp⟩
    obtain rfl := Fusion.into.inj hs
    exact ⟨hvw.keeps ht, heq.imp_right .inl⟩
  rw [Rules.combine, Rules.combine]
  refine (hasks (hf.subtype ha.keeps hb.keeps) (fun hC => ⟨hC.1, hC.2.1⟩) fun _ hK => ?_).bind
    fun v₁ ab _ h₁ hab _ => ?_
  · obtain ⟨hsa, hsb, hk⟩ := hrank hK
    exact ⟨hsa, hsb, by omega⟩
  replace ha := ha.onward h₁
  replace hb := hb.onward h₁
  cases ab with
  | true => exact hinto ha.keeps (.inl rfl)
  | false =>
    refine (hasks (hf.subtype hb.keeps ha.keeps) (fun hC => ⟨hC.2.1, hC.1⟩) fun _ hK => ?_).bind
      fun v₂ ba _ h₂ hba _ => ?_
    · obtain ⟨hsa, hsb, hk⟩ := hrank hK
      exact ⟨hsb, hsa, by omega⟩
    replace ha := ha.onward h₂
    replace hb := hb.onward h₂
    cases ba with
    | true => exact hinto hb.keeps (.inr rfl)
    | false =>
      refine (hasks (hf.disjoint ha.keeps hb.keeps) (fun hC => ⟨hC.1, hC.2.1⟩) fun _ hK => hrank hK).bind
        fun v₃ dis _ h₃ hdis _ => ?_
      replace ha := ha.onward h₃
      replace hb := hb.onward h₃
      cases dis with
      | true => exact .pure (fun _ _ => rfl) fun _ _ _ => ⟨by simp, by simp⟩
      | false =>
        have hmerge := hf.mergeObjects ha.keeps hb.keeps
        by_cases hobject : a.isObject = true ∧ b.isObject = true
        · refine (hmerge.imp fun w fusion _ _ h _ => ?_).weaken (fun _ hC => hC.2.2 hobject) fun _ h => h.1.2.2 hobject
          exact ⟨fun t ht => ⟨(h.1 t ht).1, .inr (.inr (h.1 t ht).2)⟩,
            fun hapart _ hla hlb => absurd hlb (h.2 hapart hobject hla)⟩
        · simp only [if_false, Bool.false_eq_true, mergeObjects_eq_pure hobject]
          refine .pure (fun _ _ => rfl) fun w _ hvw => ⟨by simp, fun _ hspent hla hlb => ?_⟩
          have hspent₃ := hvw.unspent hspent
          have hspent₂ := h₃.unspent hspent₃
          have hmergeable : mergeable noClasses a b = false := by
            cases a with
            | object _ _ =>
              cases b with
              | object _ _ => exact absurd ⟨rfl, rfl⟩ hobject
              | _ => rfl
            | _ => rfl
          exact combine_eq_apart_iff.2 ⟨(hab (h₂.unspent hspent₂) hla hlb).symm, (hba hspent₂ hlb hla).symm,
            (hdis hspent₃ hla hlb).symm, hmergeable⟩

theorem intersectStep (hf : Careful n k r) {ts : List Ty} (hts : ∀ t ∈ ts, u.Keeps t) :
    u.Tracks (u.Calm ts) (u.Calm ts ∧ IntersectIn n (k + 1) ts) (intersectStep r ts)
      (noClasses.answers.intersect ts) Keeps := by
  refine Tracks.congr (y := Rules.intersectStep noClasses.answers ts) (.of_coherent fun v hv huv => ?_)
    (noClasses.intersect_knot ts).symm
  replace hts (t) (ht : t ∈ ts) := huv.keeps (hts t ht)
  rw [Rules.intersectStep.eq_def r, Rules.intersectStep.eq_def noClasses.answers]
  cases hflat : conjunctsAll ts with
  | none => exact tracks_atom (by simp [atoms])
  | some flat =>
    have hparted := parted_of_conjunctsAll hflat
    have hpiece (x) (hx : x ∈ dedup flat) :
        v.Keeps x ∧ x.isInter = false ∧ x.isUnknown = false ∧ x.isNever = false := by
      obtain ⟨t, ht, hconj⟩ := (hparted.2 x).1 (mem_of_mem_dedup hx)
      refine ⟨hconj.of_inter_closed (fun ms hms m hm => hv.part hms m hm) (hts t ht), hconj.isInter,
        hconj.isUnknown, ?_⟩
      cases x with
      | never => exact absurd hconj (hparted.1 t ht)
      | _ => rfl
    cases hfirst : firstUnion? (dedup flat) with
    | some found =>
      obtain ⟨us, others⟩ := found
      simp only [hfirst]
      have hmet : noClasses.intersect ts = noClasses.union (us.map fun x => noClasses.intersect (x :: others)) :=
        Hierarchy.intersect_spread hflat hfirst
      obtain ⟨before, after, hspread, rfl⟩ := firstUnion?_some hfirst
      have hkept (x) (hx : x ∈ us) (t) (ht : t ∈ x :: (before ++ after)) : v.Keeps t := by
        rw [hspread] at hpiece
        rcases List.mem_cons.1 ht with rfl | ht
        · exact hv.part (hpiece (.union us) (by simp)).1 t hx
        · exact (hpiece t (by rcases List.mem_append.1 ht with ht | ht <;> simp [ht])).1
      -- only a union is spread, and beside it there is nothing but `number`
      have hcalm (hspent : v.spent = false) (hC : u.Calm ts) (x) (hx : x ∈ us) : v.Calm (x :: (before ++ after)) := by
        rcases (hC.onward huv).parted hv hspent hts hflat with ⟨-, hunion⟩ | ⟨us', hlucid, hfirst'⟩
        · have hno := hunion (.union us) (by rw [hspread]; simp)
          simp [isUnion] at hno
        · obtain ⟨rfl, hothers⟩ := Prod.mk.inj (Option.some.inj (hfirst.symm.trans hfirst'))
          rw [hothers]
          refine .of_level ⟨?_, .cons (by simp) (.cons (by simp) .nil)⟩
          exact List.forall_mem_cons.2 ⟨hlucid.part hx, by simpa using Numeric.number.lucid⟩
      refine Tracks.bind (.mapM fun x hx => (hf.intersect (hkept x hx)).weaken (fun hspent hC => hcalm hspent hC x hx)
        fun hspent h => ⟨hcalm hspent h.1 x hx, fun t ht => ?_, ?_⟩) fun w mets hw hvw hmets hsame =>
          tracks_union hmets fun hspent hC => ?_
      · exact (bounded_of_spread h.2.1 hflat hspread hx t ht).shallow
      · exact Nat.lt_of_lt_of_le (intersectRank_spread h.2.1 hflat hspread hx) (Nat.le_of_lt_succ h.2.2)
      · replace hsame := hsame hspent hC
        rw [Ideal.run_mapM] at hsame
        simp only [Ideal.run_answers_intersect] at hsame
        rw [hsame, ← hmet]
        exact ((hC.onward huv).onward hvw).sole_or_keeps hw hspent
    | none =>
      simp only [hfirst]
      have hpieces (x) (hx : x ∈ dedup flat) : v.Piece x := by
        obtain ⟨hkeeps, hi, hk, hn⟩ := hpiece x hx
        exact ⟨hkeeps, isMember_iff.2 ⟨firstUnion?_none hfirst hx, hn, hk⟩, hi⟩
      have hmixed (hspent : v.spent = false) (hC : u.Calm ts) : Mixed (dedup flat) := by
        rcases (hC.onward huv).parted hv hspent hts hflat with ⟨hmixed, -⟩ | ⟨us, -, hfirst'⟩
        · exact hmixed
        · rw [hfirst] at hfirst'
          cases hfirst'
      refine ((tracks_fuseAll (B := fun t => t.Bounded n (greatest depth ts) ∧
        layerSteps n * greatest depth ts + (2 * n + 7) ≤ k) hf.combine (Nat.le_refl _) hpieces).weaken hmixed
          fun hspent h => ⟨hmixed hspent h.1, fun x hx => ?_⟩).bind fun w found hw hvw hfound hsame => ?_
      · have hlt := h.2.2
        simp only [intersectRank] at hlt
        exact ⟨(bounded_of_parted (fun t ht => ⟨h.2.1 t ht, le_greatest ht⟩) hflat hx).1, by omega⟩
      · cases found with
        | none => exact tracks_atom (by simp [atoms])
        | some members =>
          obtain ⟨hmembers, hapart⟩ := hfound members rfl
          refine tracks_interOf hmembers hapart fun hspent hC => ?_
          have hmet : noClasses.intersect ts = (interOf members : Ideal noClasses Ty).run := by
            rw [noClasses.intersect_knot, Rules.intersectStep, hflat]
            simp only [hfirst, Ideal.run_bind, ← hsame hspent hC]
          rw [← hmet]
          exact ((hC.onward huv).onward hvw).sole_or_keeps hw hspent

/-- Rules that ask careful answers are careful on rank one more. -/
theorem next (hf : Careful n k r) : Careful n (k + 1) r.next where
  subtype := hf.subtypeStep
  disjoint := hf.disjointStep
  property := hf.propertyStep
  intersect := hf.intersectStep

end Careful

/-- **The answers of any number of steps are careful**: without any nothing is answered. -/
theorem careful_upTo (n k : Nat) : Careful n k (upTo k) := by
  induction k with
  | zero =>
    have hno {u : Universe} {α : Type} {C : Prop} {R : Prop} {a : α} {y : Ideal noClasses α} {Q : Universe → α → Prop}
        (hR : ¬ R) (hq : ∀ v : Universe, v.Coherent → u.Onward v → Q v a) :
        u.Tracks C (C ∧ R) (do TypeStore.giveUp; return a) y Q :=
      (tracks_giveUp y hq).weaken (fun _ h => h) fun _ h => hR h.2
    refine ⟨fun _ _ => hno ?_ fun _ _ _ => trivial, fun _ _ => hno ?_ fun _ _ _ => trivial,
      fun _ _ => hno ?_ fun _ _ _ => by simp, fun _ => hno ?_ fun v hv _ => hv.atom (by simp [atoms])⟩
    · exact fun h => absurd h.2.2 (Nat.not_lt_zero _)
    · exact fun h => absurd h.2.2 (Nat.not_lt_zero _)
    · exact fun h => absurd h.2 (Nat.not_lt_zero _)
    · exact fun h => absurd h.2 (Nat.not_lt_zero _)
  | succ k ih => exact ih.next

end Rules
end FlowTyping
