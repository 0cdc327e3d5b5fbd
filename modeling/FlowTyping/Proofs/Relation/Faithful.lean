import FlowTyping.Proofs.Relation.Follow

/-!
# Questions in a universe

A universe answers the four questions as they are answered without one: keeping one tree per key and
remembering answers changes nothing that can be seen in an answer, as long as all names are words.

* **`Rules.Faithful`** — answers that are right on all questions of smaller rank, and
  **`Rules.Faithful.next`**, by which their rules are right on rank one more.
* **`Universe.says_subtype`**, **`Universe.says_disjoint`**, **`Universe.yields_propertyOf`**,
  **`Universe.yields_intersect`** — the public operations.
-/

namespace FlowTyping.Rules

open Ty Universe

/-- The answers are right on the questions about shallow types below a rank. -/
structure Faithful (h : Hierarchy) (n k : Nat) (r : Rules InUniverse) : Prop where
  subtype : ∀ {s t : Ty}, s.Shallow n → t.Shallow n → subtypeRank n s t < k → r.TellsSubtype h s t
  disjoint : ∀ {s t : Ty}, s.Shallow n → t.Shallow n → disjointRank n s t < k →
    r.TellsDisjoint h s t
  property : ∀ {t : Ty} (name : Text), t.Shallow n → propertyRank n t < k → r.TellsProperty h t name
  intersect : ∀ {ts : List Ty}, (∀ t ∈ ts, t.Shallow n) → intersectRank n ts < k →
    r.TellsIntersect h ts

namespace Faithful

variable {h : Hierarchy} {n k : Nat} {r : Rules InUniverse} {u : Universe} {a b s t x y : Ty}

/-! ## Subtyping -/

/-- Shapes, tuples and functions are compared by their parts, a layer below. -/
theorem subtype_below (hf : Faithful h n k r) (hk : subtypeRank n s t ≤ k)
    (hx : x.Bounded n (max s.depth t.depth - 1)) (hy : y.Bounded n (max s.depth t.depth - 1))
    (hd : 1 ≤ max s.depth t.depth) : r.TellsSubtype h x y :=
  hf.subtype hx.shallow hy.shallow (Nat.lt_of_lt_of_le (subtypeRank_below hx hy hd) hk)

theorem says_objectSubtype (hf : Faithful h n k r) {tag : String} {ps qs : List (Property Ty)}
    (hs : s.Shallow n) (ht : (Ty.object tag qs).Shallow n)
    (hk : subtypeRank n s (.object tag qs) ≤ k) (ha : u.Stands a s)
    (hps : List.Forall₂ (Property.Mirrors u.Stands) ps qs) :
    u.Says h (objectSubtype r a tag ps) (objectSubtype h.answers s tag qs).run := by
  have hd : 1 ≤ (Ty.object tag qs).depth := one_le_depth rfl
  refine Rules.says_objectSubtype ha hps (fun name => ?_) fun q hq p hp => ?_
  · exact hf.property name hs (Nat.lt_of_lt_of_le (propertyRank_lt_subtypeRank s tag qs) hk)
  · rw [← Ideal.run_answers_propertyOf] at hp
    have hp : p.type.Bounded n (s.depth - 1) := (h.answers_tame n).property ⟨hs, Nat.le_refl _⟩ hp
    exact hf.subtype_below hk (hp.mono (by omega)) (below_right ht rfl (List.mem_map_of_mem hq))
      (by omega)

theorem says_plainSubtype (hf : Faithful h n k r) (hs : s.Shallow n) (ht : t.Shallow n)
    (hk : subtypeRank n s t ≤ k) (ha : u.Stands a s) (hb : u.Stands b t) :
    u.Says h (plainSubtype r a b) (plainSubtype h.answers s t).run := by
  refine .of_sound fun v hv huv => ?_
  replace ha := ha.grows huv
  have hma := hv.mirroring.mirrors ha
  have hmb := hv.mirroring.mirrors (hb.grows huv)
  -- a literal against an atom
  have hliteral {l : Literal} {base : Ty} (hbase : base ∈ atoms)
      (hm : Mirrors v.Stands (.literal l) s) (hm' : Mirrors v.Stands base t)
      (hrule : ∀ l' : Literal, (plainSubtype h.answers (.literal l') base).run = l'.base.same base) :
      v.Says h (pure (l.base.same base)) (plainSubtype h.answers s t).run := by
    obtain ⟨l', rfl, hl⟩ := hm.literal_inv
    obtain rfl := hm'.eq_of_atom hbase
    rw [hrule, hl]
    exact Says.pure h v _
  rw [plainSubtype.eq_def r]
  split
  · obtain ⟨qs, rfl, hps⟩ := hmb.object_inv
    exact hf.says_objectSubtype hs ht hk ha hps
  · rename_i elemsA restA elemsB restB
    obtain ⟨elemsA', restA', rfl, hA, hrA⟩ := hma.tuple_inv
    obtain ⟨elemsB', restB', rfl, hB, hrB⟩ := hmb.tuple_inv
    have hd := one_le_depth (a := .tuple elemsA' restA') rfl
    exact says_elemsSubtype hA hB hrA hrB fun x hx y hy =>
      hf.subtype_below hk (below_left hs rfl hx) (below_right ht rfl hy) (by omega)
  · rename_i paramsA retA paramsB retB
    obtain ⟨paramsA', retA', rfl, hA, hrA⟩ := hma.function_inv
    obtain ⟨paramsB', retB', rfl, hB, hrB⟩ := hmb.function_inv
    have hd := one_le_depth (a := .function paramsA' retA') rfl
    refine says_functionSubtype hA hB hrA hrB (fun pa hpa pb hpb => ?_) ?_
    · refine hf.subtype_below hk (argType_bounded (below_right ht rfl ?_))
        (argType_bounded (below_left hs rfl ?_)) (by omega)
      · exact List.mem_append_left _ (List.mem_map_of_mem hpb)
      · exact List.mem_append_left _ (List.mem_map_of_mem hpa)
    · exact hf.subtype_below hk (below_left hs rfl (by simp [parts]))
        (below_right ht rfl (by simp [parts])) (by omega)
  · exact hliteral (by simp [atoms]) hma hmb fun l' => rfl
  · exact hliteral (by simp [atoms]) hma hmb fun l' => rfl
  · exact hliteral (by simp [atoms]) hma hmb fun l' => rfl
  · rename_i hobject htuple hfunction hboolean hnumber hstring
    have hbase {l : Literal} {base : Ty} (hbase : base ∈ atoms)
        (hno : ∀ l, a = .literal l → b = base → False) (hs : s = .literal l) (ht : t = base) :
        False := by
      subst hs ht
      obtain ⟨l', rfl, -⟩ := hma.flip.literal_inv
      exact hno l' rfl (hmb.flip.eq_of_atom hbase)
    rw [plainSubtype]
    · exact Says.pure h v false
    · exact hmb.not_object hobject
    · rintro elemsA restA elemsB restB rfl rfl
      obtain ⟨_, _, rfl, -⟩ := hma.flip.tuple_inv
      obtain ⟨_, _, rfl, -⟩ := hmb.flip.tuple_inv
      exact htuple _ _ _ _ rfl rfl
    · rintro paramsA retA paramsB retB rfl rfl
      obtain ⟨_, _, rfl, -⟩ := hma.flip.function_inv
      obtain ⟨_, _, rfl, -⟩ := hmb.flip.function_inv
      exact hfunction _ _ _ _ rfl rfl
    · exact fun l => hbase (by simp [atoms]) hboolean
    · exact fun l => hbase (by simp [atoms]) hnumber
    · exact fun l => hbase (by simp [atoms]) hstring

/-- The parts that a question opens on its left side. -/
theorem subtype_left (hf : Faithful h n k r) (hs : s.Shallow n) (ht : t.Shallow n)
    (hk : subtypeRank n s t ≤ k) (ho : s.opens = true) (hx : x ∈ s.parts) : r.TellsSubtype h x t :=
  hf.subtype (hs.part hx) ht (Nat.lt_of_lt_of_le (subtypeRank_left ho hx) hk)

/-- The parts that a question opens on its right side. -/
theorem subtype_right (hf : Faithful h n k r) (hs : s.Shallow n) (ht : t.Shallow n)
    (hk : subtypeRank n s t ≤ k) (ho : t.opens = true) (hx : x ∈ t.parts) : r.TellsSubtype h s x :=
  hf.subtype hs (ht.part hx) (Nat.lt_of_lt_of_le (subtypeRank_right ho hx) hk)

theorem says_rightSubtype (hf : Faithful h n k r) (hs : s.Shallow n) (ht : t.Shallow n)
    (hk : subtypeRank n s t ≤ k) (ha : u.Stands a s) (hb : u.Stands b t) :
    u.Says h (rightSubtype r a b) (rightSubtype h.answers s t).run := by
  refine .of_sound fun v hv huv => ?_
  replace ha := ha.grows huv
  replace hb := hb.grows huv
  have hma := hv.mirroring.mirrors ha
  have hmb := hv.mirroring.mirrors hb
  have hleft {xs : List Ty} (ho : s.opens = true) (hxs : List.Forall₂ v.Stands xs s.parts) :
      v.Says h (xs.anyM fun x => r.subtype x b) (s.parts.any fun x => h.subtype x t) :=
    Says.anyM hxs fun x _ y hy hxy => hf.subtype_left hs ht hk ho hy v x b hxy hb
  have hright {xs : List Ty} (ho : t.opens = true) (hxs : List.Forall₂ v.Stands xs t.parts) :
      v.Says h (xs.anyM fun x => r.subtype a x) (t.parts.any fun x => h.subtype s x) :=
    Says.anyM hxs fun x _ y hy hxy => hf.subtype_right hs ht hk ho hy v a x ha hxy
  -- the cases are those of the rule: a union or a shape on the right, each with an intersection on the left or not
  rw [rightSubtype.eq_def r]
  split
  · obtain ⟨ns, rfl, hbs⟩ := hmb.union_inv
    obtain ⟨ms, rfl, has⟩ := hma.inter_inv
    rw [rightSubtype, Ideal.run_bind, Ideal.run_ite, Ideal.run_anyM, Ideal.run_anyM]
    exact (hright rfl hbs).cond (.pure h v true) (hleft rfl has)
  · rename_i hinter
    obtain ⟨ns, rfl, hbs⟩ := hmb.union_inv
    rw [rightSubtype, Ideal.run_anyM]
    · exact hright rfl hbs
    · exact hma.not_inter hinter
  · obtain ⟨qs, rfl, hps⟩ := hmb.object_inv
    obtain ⟨ms, rfl, has⟩ := hma.inter_inv
    rw [rightSubtype, Ideal.run_bind, Ideal.run_ite, Ideal.run_anyM]
    exact (hleft rfl has).cond (.pure h v true) (hf.says_objectSubtype hs ht hk ha hps)
  · rename_i hunion hobject
    obtain ⟨ms, rfl, has⟩ := hma.inter_inv
    rw [rightSubtype, Ideal.run_anyM]
    · exact hleft rfl has
    · exact hmb.not_union hunion
    · exact hmb.not_object hobject
  · rename_i hunion hinter _ _
    rw [rightSubtype]
    · exact hf.says_plainSubtype hs ht hk ha hb
    · exact hmb.not_union hunion
    · exact hma.not_inter hinter
    · exact fun ns _ heq _ => hmb.not_union hunion ns heq
    · exact fun _ _ ms _ heq => hma.not_inter hinter ms heq

/-- A type parameter without a bound has none that is below. -/
theorem says_boundSubtype (hf : Faithful h n k r) {name : String} {bound bound' : Option Ty}
    (hs : (Ty.var name bound').Shallow n) (ht : t.Shallow n)
    (hk : subtypeRank n (.var name bound') t ≤ k) (hb : u.Stands b t)
    (hbound : Option.Rel u.Stands bound bound') :
    u.Says h
      (match bound with
      | some c => r.subtype c b
      | none => pure false) (bound'.any fun c => h.subtype c t) := by
  cases hbound with
  | none => exact Says.pure h u false
  | some hc => exact hf.subtype_left hs ht hk rfl (by simp [parts]) u _ _ hc hb

theorem says_varSubtype (hf : Faithful h n k r) {name : String} {bound bound' : Option Ty}
    (hs : (Ty.var name bound').Shallow n) (ht : t.Shallow n)
    (hk : subtypeRank n (.var name bound') t ≤ k) (ha : u.Stands (.var name bound) (.var name bound'))
    (hb : u.Stands b t) (hbound : Option.Rel u.Stands bound bound') :
    u.Says h (varSubtype r (.var name bound) bound b)
      (varSubtype h.answers (.var name bound') bound' t).run := by
  refine .of_sound fun v hv huv => ?_
  replace ha := ha.grows huv
  replace hb := hb.grows huv
  replace hbound := Stands.option_grows hbound huv
  have hmb := hv.mirroring.mirrors hb
  have hrest := says_boundSubtype hf hs ht hk hb hbound
  have hor (p q : Bool) : (p || q) = if p = true then true else q := by cases p <;> rfl
  rw [run_varSubtype, hor, varSubtype.eq_def r]
  dsimp only
  split
  · obtain ⟨ns, rfl, hbs⟩ := hmb.union_inv
    exact (Says.anyM hbs fun x _ y hy hxy => hf.subtype_right hs ht hk rfl hy v _ x ha hxy).cond
      (.pure h v true) hrest
  · rename_i hunion
    have hnot : t.isUnion = false := by
      cases t with
      | union ns => exact (hmb.not_union hunion ns rfl).elim
      | _ => rfl
    rw [hnot]
    exact (Says.pure h v false).cond (.pure h v true) hrest

theorem says_subtypeRule (hf : Faithful h n k r) (hs : s.Shallow n) (ht : t.Shallow n)
    (hk : subtypeRank n s t ≤ k) (ha : u.Stands a s) (hb : u.Stands b t) :
    u.Says h (subtypeRule r a b) (subtypeRule h.answers s t).run := by
  refine .of_sound fun v hv huv => ?_
  replace ha := ha.grows huv
  replace hb := hb.grows huv
  have hma := hv.mirroring.mirrors ha
  have hmb := hv.mirroring.mirrors hb
  have hnever : Ty.never ∈ atoms := by simp [atoms]
  have hunknown : Ty.unknown ∈ atoms := by simp [atoms]
  -- the rule goes by the first pattern that fits, so the mirrors have to miss the earlier ones, too
  rw [subtypeRule.eq_def r]
  split
  · obtain rfl := hma.eq_of_atom hnever
    rw [subtypeRule]
    exact Says.pure h v true
  · rename_i hna
    obtain rfl := hmb.eq_of_atom hunknown
    rw [subtypeRule]
    · exact Says.pure h v true
    · exact hma.not_atom hnever hna
  · rename_i hub
    obtain rfl := hma.eq_of_atom hunknown
    rw [subtypeRule]
    · exact Says.pure h v false
    · exact hmb.not_atom hunknown hub
  · rename_i hna hua
    obtain rfl := hmb.eq_of_atom hnever
    rw [subtypeRule]
    · exact Says.pure h v false
    · exact hma.not_atom hnever hna
    · exact hma.not_atom hunknown hua
  · rename_i hub hnb
    obtain ⟨ms, rfl, has⟩ := hma.union_inv
    rw [subtypeRule, Ideal.run_allM]
    · exact Says.allM has fun x _ y hy hxy => hf.subtype_left hs ht hk rfl hy v x b hxy hb
    · exact hmb.not_atom hunknown hub
    · exact hmb.not_atom hnever hnb
  · rename_i hna hua hunion
    obtain ⟨ns, rfl, hbs⟩ := hmb.inter_inv
    rw [subtypeRule, Ideal.run_allM]
    · exact Says.allM hbs fun x _ y hy hxy => hf.subtype_right hs ht hk rfl hy v a x ha hxy
    · exact hma.not_atom hnever hna
    · exact hma.not_atom hunknown hua
    · exact hma.not_union hunion
  · rename_i hub hnb hinter
    obtain ⟨bound', rfl, hbound⟩ := hma.var_inv
    rw [subtypeRule]
    · exact hf.says_varSubtype hs ht hk ha hb hbound
    · exact hmb.not_atom hunknown hub
    · exact hmb.not_atom hnever hnb
    · exact hmb.not_inter hinter
  · rename_i hna hua hunion hvar hub hnb hinter
    rw [subtypeRule]
    · exact hf.says_rightSubtype hs ht hk ha hb
    · exact hma.not_atom hnever hna
    · exact hma.not_atom hunknown hua
    · exact hma.not_union hunion
    · exact hma.not_var hvar
    · exact hmb.not_atom hunknown hub
    · exact hmb.not_atom hnever hnb
    · exact hmb.not_inter hinter

/-- The rule answers alike for all types of the same keys, since the same trees stand for them. -/
theorem subtypeRule_eq (hf : Faithful h n k r) (hs : s.Shallow n) (ht : t.Shallow n)
    (hk : subtypeRank n s t ≤ k) (hu : u.Sound h) (ha : u.Stands a s) (hb : u.Stands b t)
    (hx : x.Named) (hy : y.Named) (hsx : s.key = x.key) (hty : t.key = y.key) :
    (Rules.subtypeRule h.answers s t).run = (Rules.subtypeRule h.answers x y).run := by
  have hsx' : s.key = x.key ∧ s.Named ∧ x.Named := ⟨hsx, ha.named, hx⟩
  have hty' : t.key = y.key ∧ t.Named ∧ y.Named := ⟨hty, hb.named, hy⟩
  have hrank : subtypeRank n x y = subtypeRank n s t := by
    rw [subtypeRank, subtypeRank, Mirroring.sameKey.depth_eq hsx', Mirroring.sameKey.depth_eq hty',
      Mirroring.sameKey.height_eq hsx', Mirroring.sameKey.height_eq hty']
  exact (hf.says_subtypeRule hs ht hk ha hb).unique hu <|
    hf.says_subtypeRule (Mirroring.sameKey.shallow hsx' hs) (Mirroring.sameKey.shallow hty' ht)
      (by omega) (ha.of_key_eq hx hsx) (hb.of_key_eq hy hty)

theorem says_subtypeStep (hf : Faithful h n k r) (hs : s.Shallow n) (ht : t.Shallow n)
    (hk : subtypeRank n s t ≤ k) (ha : u.Stands a s) (hb : u.Stands b t) :
    u.Says h (subtypeStep r a b) (h.subtype s t) := by
  refine .of_sound fun v hv huv => ?_
  replace ha := ha.grows huv
  replace hb := hb.grows huv
  have hrun (x y : Ty) := (h.subtype_knot x y).trans (run_subtypeStep h.answers x y)
  rw [subtypeStep, hv.key_eq ha.lookup?, hv.key_eq hb.lookup?]
  dsimp only
  split
  · rename_i hkey
    rw [hrun, decide_eq_true hkey]
    exact Says.pure h v true
  · rename_i hkey
    refine (yields_answered? ha.named hb.named).bind fun v₁ known hv₁ h₁ hknown => ?_
    cases known with
    | some answer =>
      obtain rfl := hknown answer rfl
      exact Says.pure h v₁ _
    | none =>
      replace ha := ha.grows h₁
      replace hb := hb.grows h₁
      have hrule := hf.says_subtypeRule hs ht hk ha hb
      have hanswer (x y : Ty) (hx : x.Named) (hy : y.Named) (hq : (s.key, t.key) = (x.key, y.key)) :
          (Rules.subtypeRule h.answers s t).run = h.subtype x y := by
        obtain ⟨hsx, hty⟩ := Prod.mk.inj hq
        rw [hrun, ← hsx, ← hty, decide_eq_false hkey, Bool.false_or]
        exact hf.subtypeRule_eq hs ht hk hv₁ ha hb hx hy hsx hty
      refine hrule.bind ((yields_remember hanswer).bind fun v₂ _ _ _ _ => ?_)
      rw [hanswer s t ha.named hb.named rfl]
      exact Says.pure h v₂ _

/-! ## Disjointness -/

theorem disjoint_below (hf : Faithful h n k r) (hk : disjointRank n s t ≤ k)
    (hx : x.Bounded n (max s.depth t.depth - 1)) (hy : y.Bounded n (max s.depth t.depth - 1))
    (hd : 1 ≤ max s.depth t.depth) : r.TellsDisjoint h x y :=
  hf.disjoint hx.shallow hy.shallow (Nat.lt_of_lt_of_le (disjointRank_below hx hy hd) hk)

theorem says_partsDisjoint (hf : Faithful h n k r) (hs : s.Shallow n) (ht : t.Shallow n)
    (hk : disjointRank n s t ≤ k) (ha : u.Stands a s) (hb : u.Stands b t) :
    u.Says h (partsDisjoint r a b) (partsDisjoint h.answers s t).run := by
  refine .of_sound fun v hv huv => ?_
  have hma := hv.mirroring.mirrors (ha.grows huv)
  have hmb := hv.mirroring.mirrors (hb.grows huv)
  rw [partsDisjoint.eq_def r]
  split
  · obtain ⟨_, rfl, -⟩ := hma.literal_inv
    obtain ⟨_, rfl, -⟩ := hmb.literal_inv
    exact Says.pure h v true
  · rename_i tagA propsA tagB propsB
    obtain ⟨propsA', rfl, hA⟩ := hma.object_inv
    obtain ⟨propsB', rfl, hB⟩ := hmb.object_inv
    have hd := one_le_depth (a := .object tagA propsA') rfl
    exact says_propsDisjoint hA hB fun pa hpa pb hpb =>
      hf.disjoint_below hk (below_left hs rfl (List.mem_map_of_mem hpa))
        (below_right ht rfl (List.mem_map_of_mem hpb)) (by omega)
  · rename_i elemsA restA elemsB restB
    obtain ⟨elemsA', restA', rfl, hA, hrA⟩ := hma.tuple_inv
    obtain ⟨elemsB', restB', rfl, hB, hrB⟩ := hmb.tuple_inv
    have hd := one_le_depth (a := .tuple elemsA' restA') rfl
    have helems : v.Says h (elemsDisjoint r elemsA elemsB)
        (elemsDisjoint h.answers elemsA' elemsB').run := by
      refine says_elemsDisjoint hA hB fun ea hea eb heb => ?_
      refine hf.disjoint_below hk (below_left hs rfl ?_) (below_right ht rfl ?_) (by omega)
      · exact List.mem_append_left _ (List.mem_map_of_mem hea)
      · exact List.mem_append_left _ (List.mem_map_of_mem heb)
    have hnone {o o' : Option Ty} (ho : Option.Rel v.Stands o o') : o.isNone = o'.isNone := by
      cases ho <;> rfl
    have hrequired {es fs : List (Elem Ty)} (he : List.Forall₂ (Elem.Mirrors v.Stands) es fs) :
        allRequired es = allRequired fs := by
      induction he with
      | nil => rfl
      | cons h _ ih => 
        simp only [allRequired, List.all_cons, h.optional] at ih ⊢
        rw [ih]
    rw [partsDisjoint, hnone hrA, hnone hrB, hrequired hA, hrequired hB, hA.length_eq, hB.length_eq,
      Ideal.run_ite]
    split
    · exact Says.pure h v true
    · exact helems
  -- two kinds: what mirrors them is of two kinds, too
  · rename_i hliteral hobject htuple
    rw [partsDisjoint]
    · exact Says.pure h v false
    · rintro l l' rfl rfl
      obtain ⟨_, rfl, -⟩ := hma.flip.literal_inv
      obtain ⟨_, rfl, -⟩ := hmb.flip.literal_inv
      exact hliteral _ _ rfl rfl
    · rintro tagA propsA tagB propsB rfl rfl
      obtain ⟨_, rfl, -⟩ := hma.flip.object_inv
      obtain ⟨_, rfl, -⟩ := hmb.flip.object_inv
      exact hobject _ _ _ _ rfl rfl
    · rintro elemsA restA elemsB restB rfl rfl
      obtain ⟨_, _, rfl, -⟩ := hma.flip.tuple_inv
      obtain ⟨_, _, rfl, -⟩ := hmb.flip.tuple_inv
      exact htuple _ _ _ _ rfl rfl

theorem says_disjointStep (hf : Faithful h n k r) (hs : s.Shallow n) (ht : t.Shallow n)
    (hk : disjointRank n s t ≤ k) (ha : u.Stands a s) (hb : u.Stands b t) :
    u.Says h (disjointStep r a b) (h.disjoint s t) := by
  refine .of_sound fun v hv huv => ?_
  replace ha := ha.grows huv
  replace hb := hb.grows huv
  have hR := hv.mirroring
  have hrank := subtypeRank_lt_disjointRank n s t
  have hsub : r.TellsSubtype h s t ∧ r.TellsSubtype h t s :=
    ⟨hf.subtype hs ht (Nat.lt_of_lt_of_le hrank.1 hk), hf.subtype ht hs (Nat.lt_of_lt_of_le hrank.2 hk)⟩
  rw [h.disjoint_knot, run_disjointStep, disjointStep, same, same, hR.key_eq ha, hR.key_eq hb,
    hR.isNever_eq ha, hR.isNever_eq hb, hR.isUnion_eq ha, hR.isUnion_eq hb, hR.differInSort_eq ha hb]
  split
  · exact Says.pure h v _
  split
  · exact Says.pure h v true
  split
  · rename_i hunion
    refine Says.allM (hR.members_rel ha) fun x _ y hy hxy => ?_
    refine Says.allM (hR.members_rel hb) fun x' _ y' hy' hxy' => ?_
    exact hf.disjoint (members_le hs hy).1 (members_le ht hy').1
      (Nat.lt_of_lt_of_le (disjointRank_members hs ht hunion hy hy') hk) v x x' hxy hxy'
  · refine (hsub.1 v a b ha hb).cond (.pure h v false) ?_
    refine (hsub.2 v b a hb ha).cond (.pure h v false) ?_
    split
    · exact Says.pure h v true
    · exact hf.says_partsDisjoint hs ht hk ha hb

/-! ## Properties -/

theorem yields_propertyStep (hf : Faithful h n k r) (name : Text) (ht : t.Shallow n)
    (hk : propertyRank n t ≤ k) (ha : u.Stands a t) :
    u.Yields h (propertyStep r a name) fun v found =>
      Option.Rel (Property.Mirrors v.Stands) found (h.propertyOf t name) := by
  refine .of_sound fun v hv huv => ?_
  have hma := hv.mirroring.mirrors (ha.grows huv)
  have hpart (ho : t.opens = true) (x) (hx : x ∈ t.parts) : r.TellsProperty h x name :=
    hf.property name (ht.part hx) (Nat.lt_of_lt_of_le (propertyRank_part ho hx) hk)
  have hnone : v.Yields h (pure none) fun w found =>
      Option.Rel (Property.Mirrors w.Stands) found none := .pure fun _ _ _ => .none
  -- texts and tuples have a length and nothing else
  have hlength : v.Yields h
      (pure (if (name == lengthName) = true then some { name, type := Ty.number } else none))
      fun w found => Option.Rel (Property.Mirrors w.Stands) found
        (if (name == lengthName) = true then some { name, type := .number } else none) := by
    refine .pure fun w hw _ => ?_
    split
    · exact .some ⟨rfl, stands_atom hw (by simp [atoms]), rfl, rfl⟩
    · exact .none
  rw [h.propertyOf_knot]
  cases hma with
  | atom hatom =>
    cases a with
    | string =>
      simp only [propertyStep, Ideal.run_pure]
      exact hlength
    | literal _ | object _ _ | tuple _ _ | function _ _ | union _ | inter _ | var _ _ =>
      simp [atoms] at hatom
    | _ =>
      simp only [propertyStep, Ideal.run_pure]
      exact hnone
  | @text value value' hdecode =>
    have hsame : lengthLiteral value = lengthLiteral value' := by
      rw [lengthLiteral, lengthLiteral, hdecode]
    simp only [propertyStep, hsame, Ideal.run_ite, Ideal.run_bind, Ideal.run_literal, Ideal.run_pure]
    split
    · exact (yields_literal _).bind fun w l _ _ hl =>
        .pure fun x _ hwx => .some ⟨rfl, hl.grows hwx, rfl, rfl⟩
    · exact hnone
  | tuple he hr =>
    simp only [propertyStep, Ideal.run_pure]
    exact hlength
  | object tag hp =>
    simp only [propertyStep, Ideal.run_pure]
    exact .pure fun w _ hvw => findProp?_rel (hp.imp fun _ _ hp => Stands.prop_grows hp hvw) name
  | @var name' _ _ hb =>
    cases hb with
    | none =>
      simp only [propertyStep, Ideal.run_pure]
      exact hnone
    | some hb =>
      simp only [propertyStep, Ideal.run_answers_propertyOf]
      exact hpart rfl _ (by simp [parts]) v _ hb
  | @union ms ns hm =>
    simp only [propertyStep, Ideal.run_bind]
    refine (yields_sharedProps hm (hpart rfl)).bind fun w ps _ _ hps => ?_
    generalize (sharedProps h.answers name ns).run = shared at hps
    cases hps with
    | none => exact .pure fun _ _ _ => .none
    | @some ps qs hps =>
      have htypes : List.Forall₂ w.Stands (ps.map (·.type)) (qs.map (·.type)) :=
        List.forall₂_map_left_iff.2 (List.forall₂_map_right_iff.2 (hps.imp fun _ _ hp => hp.type))
      have hany {f : Property Ty → Bool} (hflag : ∀ p q, p.Mirrors w.Stands q → f p = f q) :
          ps.any f = qs.any f := by
        clear htypes
        induction hps with
        | nil => rfl
        | cons hp _ ih => rw [List.any_cons, List.any_cons, hflag _ _ hp, ih]
      simp only [Ideal.run_bind, Ideal.run_union, Ideal.run_pure, hany fun _ _ hp => hp.optional,
        hany fun _ _ hp => hp.readonly]
      exact (yields_union htypes).bind fun x t _ _ ht =>
        .pure fun y _ hxy => .some ⟨rfl, ht.grows hxy, rfl, rfl⟩
  | @inter ms ns hm =>
    -- what the parts have under the name lies one level deeper, so the meet of it ranks below
    have hbounded (q) (hq : q ∈ (foundProps h.answers name ns).run) :
        q.type.Bounded n ((Ty.inter ns).depth - 1) := by
      rw [run_foundProps] at hq
      obtain ⟨m, hm, hq⟩ := List.mem_filterMap.1 hq
      have hm : m.Bounded n (Ty.inter ns).depth := Bounded.part (t := .inter ns) ⟨ht, Nat.le_refl _⟩ hm
      exact (h.answers_tame n).property hm hq
    simp only [propertyStep, Ideal.run_bind]
    refine (yields_foundProps hm (hpart rfl)).bind fun w ps _ _ hps => ?_
    generalize (foundProps h.answers name ns).run = found at hps hbounded
    cases hps with
    | nil => exact .pure fun _ _ _ => .none
    | cons hp hps =>
      simp only [Ideal.run_bind]
      refine (yields_meetProps (P := Bounded n ((Ty.inter ns).depth - 1)) ?_ ?_ hp hps ?_ ?_).bind
        fun x p _ _ hp => .pure fun y _ hxy => .some (Stands.prop_grows hp hxy)
      · intro s t hs ht
        rw [← Ideal.run_answers_intersect]
        exact (h.answers_tame n).intersect (by simp [hs, ht])
      · exact fun s t hs ht => hf.intersect (by simp [hs.shallow, ht.shallow])
          (Nat.lt_of_lt_of_le (intersectRank_lt_propertyRank hs ht) hk)
      · exact hbounded _ (by simp)
      · exact fun q hq => hbounded q (by simp [hq])
  | _ =>
    simp only [propertyStep, Ideal.run_pure]
    exact hnone

/-! ## Intersections -/

theorem tellsCombine (hf : Faithful h n k r) {d : Nat} (hk : layerSteps n * d + (2 * n + 7) ≤ k)
    (hs : s.Bounded n d ∧ s.isUnion = false ∧ s.isInter = false)
    (ht : t.Bounded n d ∧ t.isUnion = false ∧ t.isInter = false) : r.TellsCombine h s t := by
  have hrank : disjointRank n s t < k := Nat.lt_of_lt_of_le (disjointRank_lt_of_plain hs ht) hk
  have hsub := subtypeRank_lt_disjointRank n s t
  refine Rules.tellsCombine (hf.subtype hs.1.shallow ht.1.shallow (Nat.lt_trans hsub.1 hrank))
    (hf.subtype ht.1.shallow hs.1.shallow (Nat.lt_trans hsub.2 hrank)) (hf.disjoint hs.1.shallow ht.1.shallow hrank) ?_
  intro x hx y hy
  have hlt := intersectRank_lt_of_plain hs ht hx hy
  have hx := (bounded_part_of_plain hs hx).2.shallow
  have hy := (bounded_part_of_plain ht hy).2.shallow
  exact hf.intersect (by simp [hx, hy]) (by omega)

/-- Trees that stand for members that stay side by side do so themselves, and in their order they are
the members of an intersection. -/
theorem interForm_of_apart (hf : Faithful h n k r) {d : Nat} {ms ns : List Ty}
    (hk : layerSteps n * d + (2 * n + 7) ≤ k) (hu : u.Sound h) (hms : List.Forall₂ u.Stands ms ns)
    (hns : ∀ x ∈ ns, x.Bounded n d ∧ x.isMember = true ∧ x.isInter = false)
    (hapart : ns.Pairwise fun x y => (combine h.answers x y).run = .apart) (hlen : 2 ≤ ms.length) :
    InterForm (sortByKey ms) ∧ SettledIn h (sortByKey ms) := by
  have hR := hu.mirroring
  have hplain {x : Ty} (hx : x.Bounded n d ∧ x.isMember = true ∧ x.isInter = false) :
      x.Bounded n d ∧ x.isUnion = false ∧ x.isInter = false :=
    ⟨hx.1, (isMember_iff.1 hx.2.1).1, hx.2.2⟩
  have hkeep {a s : Ty} (ha : u.Stands a s)
      (hs : s.Bounded n d ∧ s.isMember = true ∧ s.isInter = false) :
      u.Stands a a ∧ a.Bounded n d ∧ a.isMember = true ∧ a.isInter = false := by
    have hself := hu.stands (hu.keeps_of_stands ha)
    have hsame : s.key = a.key ∧ s.Named ∧ a.Named := ⟨(hR.key_eq ha).symm, ha.named, hself.named⟩
    have hbounded : a.Bounded n d :=
      ⟨Mirroring.sameKey.shallow hsame hs.1.shallow, hR.depth_eq ha ▸ hs.1.depth_le⟩
    exact ⟨hself, hbounded, hR.isMember_eq ha ▸ hs.2.1, hR.isInter_eq ha ▸ hs.2.2⟩
  -- the same trees stand for themselves, and what becomes of them cannot be two things
  have htrees {a b s t : Ty} (ha : u.Stands a s) (hb : u.Stands b t)
      (hs : s.Bounded n d ∧ s.isMember = true ∧ s.isInter = false)
      (ht : t.Bounded n d ∧ t.isMember = true ∧ t.isInter = false)
      (hst : (combine h.answers s t).run = .apart) : (combine h.answers a b).run = .apart := by
    obtain ⟨haa, ha'⟩ := hkeep ha hs
    obtain ⟨hbb, hb'⟩ := hkeep hb ht
    have htold := (hf.tellsCombine hk (hplain hs) (hplain ht) u a b ha hb u hu (.refl h u)).2.2
    have hself := (hf.tellsCombine hk (hplain ha') (hplain hb') u a b haa hbb u hu (.refl h u)).2.2
    rw [hst] at htold
    generalize ((combine r a b).run u).1 = fusion at htold hself
    cases htold
    generalize (combine h.answers a b).run = fusion' at hself
    cases hself
    rfl
  have hpairs : List.Forall₂ (fun a s => u.Stands a s ∧
      s.Bounded n d ∧ s.isMember = true ∧ s.isInter = false) ms ns :=
    forall₂_imp_of_mem hms fun a _ s hs ha => ⟨ha, hns s hs⟩
  have hsettled : ms.Pairwise fun a b => (combine h.answers a b).run = .apart := by
    clear hms hns hlen
    induction hpairs with
    | nil => exact .nil
    | cons hs hrest ih =>
      obtain ⟨hfirst, hapart⟩ := List.pairwise_cons.1 hapart
      refine .cons (fun b hb => ?_) (ih hapart)
      obtain ⟨t, ht, hbt⟩ := exists_mem_right hrest hb
      exact htrees hs.1 hbt.1 hs.2 hbt.2 (hfirst t ht)
  refine settled_sortByKey hlen (fun m hm => ?_) hsettled
  obtain ⟨s, -, hs⟩ := exists_mem_right hpairs hm
  exact (hkeep hs.1 hs.2).2.2

theorem yields_intersectStep (hf : Faithful h n k r) {as ts : List Ty} (hts : ∀ t ∈ ts, t.Shallow n)
    (hk : intersectRank n ts ≤ k) (has : List.Forall₂ u.Stands as ts) :
    u.Yields h (intersectStep r as) fun v met => v.Stands met (h.intersect ts) := by
  refine .of_sound fun v hv huv => ?_
  have hflat := hv.mirroring.conjunctsAll_rel (has.imp fun _ _ hs => Stands.grows hs huv)
  rw [h.intersect_knot, intersectStep, intersectStep]
  generalize conjunctsAll as = opened, hopened : conjunctsAll ts = opened' at hflat
  cases hflat with
  | none => exact yields_atom (by simp [atoms])
  | @some flat flat' hflat =>
    replace hflat := hv.mirroring.dedup_rel hflat
    have hfirst := hv.mirroring.firstUnion?_rel hflat
    dsimp only
    generalize firstUnion? (dedup flat) = first, hfirst' : firstUnion? (dedup flat') = first'
      at hfirst
    cases hfirst with
    | @some found found' hfound =>
      -- a union is spread: its members are met with the others, one after the other
      obtain ⟨us, others⟩ := found
      obtain ⟨us', others'⟩ := found'
      obtain ⟨before, after, hspread, rfl⟩ := firstUnion?_some hfirst'
      simp only [Ideal.run_bind, Ideal.run_mapM, Ideal.run_union, Ideal.run_answers_intersect]
      refine (Yields.mapM (P := fun v y met => v.Stands met (h.intersect (y :: (before ++ after))))
        (fun hvw hs => hs.grows hvw) hfound.1 fun x _ y hy hxy => ?_).bind fun w met _ _ hmet =>
          yields_union (List.forall₂_map_right_iff.2 hmet.flip)
      have hbounded := bounded_of_spread hts hopened hspread hy
      exact hf.intersect (fun t ht => (hbounded t ht).shallow)
        (Nat.lt_of_lt_of_le (intersectRank_spread hts hopened hspread hy) hk) v _ (.cons hxy hfound.2)
    | none =>
      -- no union: what is left are members, and they stay bounded while they are fused
      have hlayer : layerSteps n * greatest depth ts + (2 * n + 7) ≤ k := by
        simp only [intersectRank] at hk
        omega
      have hP (a b t : Ty)
          (ha : a.Bounded n (greatest depth ts) ∧ a.isMember = true ∧ a.isInter = false)
          (hb : b.Bounded n (greatest depth ts) ∧ b.isMember = true ∧ b.isInter = false)
          (hc : (combine h.answers a b).run = .into t) :
          t.Bounded n (greatest depth ts) ∧ t.isMember = true ∧ t.isInter = false :=
        ⟨(h.answers_tame n).combine ha.1 hb.1 hc, Hierarchy.combine_isMember ha.2 hb.2 hc⟩
      have hmem (x) (hx : x ∈ dedup flat') :
          x.Bounded n (greatest depth ts) ∧ x.isMember = true ∧ x.isInter = false := by
        obtain ⟨hbounded, hinter⟩ :=
          bounded_of_parted (fun t ht => ⟨hts t ht, le_greatest ht⟩) hopened hx
        have hparted := parted_of_conjunctsAll hopened
        obtain ⟨t, ht, hconj⟩ := (hparted.2 x).1 (mem_of_mem_dedup hx)
        have hnever : x.isNever = false := by
          cases x with
          | never => exact absurd hconj (hparted.1 t ht)
          | _ => rfl
        exact ⟨hbounded, isMember_iff.2 ⟨firstUnion?_none hfirst' hx, hnever, hconj.isUnknown⟩, hinter⟩
      have hsettled := fuseAll_settled h.answers (dedup flat').length (dedup flat') (Nat.le_refl _)
      simp only [Ideal.run_bind, hflat.length_eq]
      refine (yields_fuseAll hP (fun a b ha hb => hf.tellsCombine hlayer
        ⟨ha.1, (isMember_iff.1 ha.2.1).1, ha.2.2⟩ ⟨hb.1, (isMember_iff.1 hb.2.1).1, hb.2.2⟩) _ hflat
        hmem).bind fun w members hw _ hmembers => ?_
      generalize (fuseAll h.answers (dedup flat').length (dedup flat')).run = members'
        at hmembers hsettled
      cases hmembers with
      | none => exact yields_atom (by simp [atoms])
      | some hmembers =>
        exact yields_interOf hmembers fun hlen => hf.interForm_of_apart hlayer hw hmembers
          (hsettled.forall hP hmem rfl) (hsettled.apart rfl) hlen

/-- Rules that ask faithful answers are faithful on one rank more. -/
theorem next (hf : Faithful h n k r) : Faithful h n (k + 1) r.next where
  subtype hs ht hk u a b ha hb := hf.says_subtypeStep hs ht (by omega) ha hb
  disjoint hs ht hk u a b ha hb := hf.says_disjointStep hs ht (by omega) ha hb
  property name ht hk u a ha := hf.yields_propertyStep name ht (by omega) ha
  intersect hts hk u as has := hf.yields_intersectStep hts (by omega) has

end Faithful

/-- A question is answered right if it may take more nested steps than its rank. -/
theorem faithful_upTo (h : Hierarchy) (n k : Nat) : Faithful h n k (upTo k) := by
  induction k with
  | zero => exact ⟨by simp, by simp, by simp, by simp⟩
  | succ k ih => exact ih.next

end FlowTyping.Rules

/-! ## The public operations -/

namespace FlowTyping.Universe

open Rules Ty

variable {h : Hierarchy} {u : Universe} {a b s t : Ty}

theorem stepBound_eq {as ts : List Ty} (hu : u.Sound h) (has : List.Forall₂ u.Stands as ts) :
    stepBound as = stepBound ts := by
  rw [stepBound, stepBound, hu.mirroring.sizeAll_eq has]

theorem says_subtype (ha : u.Stands a s) (hb : u.Stands b t) :
    u.Says h (TypeStore.subtype a b) (h.subtype s t) := by
  refine .of_sound fun v hv huv => ?_
  replace ha := ha.grows huv
  replace hb := hb.grows huv
  rw [TypeStore.subtype, stepBound_eq hv (.cons ha (.cons hb .nil))]
  refine Yields.bounded ?_
  exact (faithful_upTo h (sizeAll [s, t]) _).subtype (shallow_of_mem (by simp))
    (shallow_of_mem (by simp)) (subtypeRank_lt_stepBound s t).1 v a b ha hb

theorem says_disjoint (ha : u.Stands a s) (hb : u.Stands b t) :
    u.Says h (TypeStore.disjoint a b) (h.disjoint s t) := by
  refine .of_sound fun v hv huv => ?_
  replace ha := ha.grows huv
  replace hb := hb.grows huv
  rw [TypeStore.disjoint, stepBound_eq hv (.cons ha (.cons hb .nil))]
  refine Yields.bounded ?_
  exact (faithful_upTo h (sizeAll [s, t]) _).disjoint (shallow_of_mem (by simp))
    (shallow_of_mem (by simp)) (subtypeRank_lt_stepBound s t).2 v a b ha hb

theorem yields_propertyOf (ha : u.Stands a t) (name : Text) :
    u.Yields h (TypeStore.propertyOf a name) fun v found =>
      Option.Rel (Property.Mirrors v.Stands) found (h.propertyOf t name) := by
  refine .of_sound fun v hv huv => ?_
  replace ha := ha.grows huv
  rw [TypeStore.propertyOf, stepBound_eq hv (.cons ha .nil)]
  refine Yields.bounded ?_
  exact (faithful_upTo h (sizeAll [t]) _).property name (shallow_of_mem (by simp))
    (propertyRank_lt_stepBound t) v a ha

theorem yields_intersect {as ts : List Ty} (has : List.Forall₂ u.Stands as ts) :
    u.Yields h (TypeStore.intersect as) fun v met => v.Stands met (h.intersect ts) := by
  refine .of_sound fun v hv huv => ?_
  replace has := has.imp fun _ _ hs => Stands.grows hs huv
  rw [TypeStore.intersect, stepBound_eq hv has]
  refine Yields.bounded ?_
  exact (faithful_upTo h (sizeAll ts) _).intersect (fun t ht => shallow_of_mem ht)
    (intersectRank_lt_stepBound ts) v as has

theorem yields_meet {a b s t : Ty} (ha : u.Stands a s) (hb : u.Stands b t) :
    u.Yields h (TypeStore.meet a b) fun v r => v.Stands r (h.meet s t) :=
  yields_intersect (.cons ha (.cons hb .nil))

end FlowTyping.Universe
