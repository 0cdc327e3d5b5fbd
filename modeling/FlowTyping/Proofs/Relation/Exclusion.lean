import FlowTyping.Proofs.Relation.Contravariant
import FlowTyping.Proofs.Relation.Reorder
import FlowTyping.Proofs.Store.Transparent

/-!
# Types that exclude each other

Two types are disjoint when they provably share no value. A type below another shares all of its values with
it, so the two answers may not contradict each other. For two types that are no unions the rule sees to it: it
asks first whether one is below the other. Between unions the members are compared, and there a type can be
below a union without being below a member of it, through a bound or a member of an intersection. That takes a
type of unknown sort, and what is known to be disjoint to anything has a sort.

* **`Hierarchy.sort_of_disjoint`** — only a type of known sort is disjoint to another.
* **`Hierarchy.exists_above_of_sort`** — a type of known sort is below a union through one of its members.
* **`Universe.History.exclusion`** — the answers are symmetric and do not contradict subtyping.
* **`Universe.stale_asymmetric`** — where an answer is remembered that became wrong, they are not.
-/

namespace FlowTyping

open Ty

namespace Ty

variable {x : Ty} {ms : List Ty}

/-- Only unions have the key of a union. -/
theorem key_ne_union (hx : x.isUnion = false) : x.key ≠ (Ty.union ms).key := by
  refine mt head_eq_of_key_eq ?_
  cases x with
  | literal l => cases l <;> simp [head]
  | union _ => simp [isUnion] at hx
  | _ => simp [head]

/-- Only intersections have the key of an intersection. -/
theorem key_ne_inter (hx : x.isInter = false) : x.key ≠ (Ty.inter ms).key := by
  refine mt head_eq_of_key_eq ?_
  cases x with
  | literal l => cases l <;> simp [head]
  | inter _ => simp [Ty.isInter] at hx
  | _ => simp [head]

/-- Every type but `never` has a member. -/
theorem Canonical.exists_mem_members (hx : Canonical x) (hn : x.isNever = false) : ∃ m, m ∈ x.members := by
  cases x with
  | never => simp [isNever] at hn
  | union ms => exact List.exists_mem_of_length_pos (Nat.lt_of_lt_of_le Nat.zero_lt_two hx.neat.1)
  | _ => exact ⟨_, List.mem_singleton.2 rfl⟩

/-- A type of known sort is a member of unions and no intersection. -/
theorem plain_of_sort (hx : x.sort? ≠ none) : x.isMember = true ∧ x.isInter = false := by
  cases x with
  | never | unknown | union _ | inter _ => simp [sort?] at hx
  | _ => exact ⟨rfl, rfl⟩

end Ty

namespace Hierarchy

variable {h : Hierarchy} {a b c m x : Ty} {ms : List Ty} {name : String}

/-- What is disjoint to another, and is neither a union nor `never`, is of a known sort. -/
theorem sort_of_disjoint (ha : a.isUnion = false ∧ a.isNever = false) (hb : b.isUnion = false ∧ b.isNever = false)
    (hd : h.disjoint a b = true) : a.sort? ≠ none := by
  obtain ⟨hab, hba⟩ := not_subtype_of_disjoint ha hb hd
  have hsame : a.same b = false := by
    refine Bool.eq_false_iff.2 fun hs => ?_
    rw [h.subtype_of_key_eq (same_iff.1 hs)] at hab
    simp at hab
  rw [disjoint_knot, Rules.run_disjointStep, Ideal.run_answers_subtype, Ideal.run_answers_subtype] at hd
  simp only [ha, hb, hab, hba, hsame, Bool.or_self, Bool.false_eq_true, if_false] at hd
  intro hsort
  have hdiffer : a.differInSort b = false := by simp [differInSort, hsort]
  rw [hdiffer, if_neg (by simp)] at hd
  -- only literals, shapes and tuples are compared by their parts
  cases a with
  | literal l => cases l <;> simp [sort?] at hsort
  | object _ _ | tuple _ _ => simp [sort?] at hsort
  | _ => simp [Rules.partsDisjoint] at hd

/-- What is no union and no intersection is below an intersection if it is below all of its members. -/
theorem subtype_inter_iff (hx : x.isMember = true) (hi : x.isInter = false) :
    h.subtype x (.inter ms) = true ↔ ∀ m ∈ ms, h.subtype x m = true := by
  rw [subtype_eq, decide_eq_false (key_ne_inter hi), Bool.false_or]
  cases x with
  | never | unknown | union _ | inter _ => simp [isMember, isNever, isUnknown, isUnion, Ty.isInter] at hx hi
  | _ => simp [Rules.subtypeRule]

/-- What is above the bound of a type parameter is above the type parameter. -/
theorem var_subtype_of_bound (hb : Canonical b) (hm : b.isMember = true) (hc : c.sort? ≠ none)
    (hs : h.subtype c b = true) : h.subtype (.var name (some c)) b = true := by
  have hplain {b : Ty} (hm : b.isMember = true) (hi : b.isInter = false) (hs : h.subtype c b = true) :
      h.subtype (.var name (some c)) b = true := by
    refine h.subtype_of_rule ?_
    have hvar : (Rules.varSubtype h.answers (.var name (some c)) (some c) b).run = true := by
      rw [Rules.run_varSubtype]
      simp [hs]
    cases b with
    | never | unknown | union _ | inter _ => simp [isMember, isNever, isUnknown, isUnion, Ty.isInter] at hm hi
    | _ => exact hvar
  cases b with
  | inter ms =>
    obtain ⟨hcm, hci⟩ := plain_of_sort hc
    have hms : ∀ m ∈ ms, m.isMember = true ∧ m.isInter = false := hb.neat.2.1
    refine (subtype_inter_iff rfl rfl).2 fun m hmem => ?_
    exact hplain (hms m hmem).1 (hms m hmem).2 ((subtype_inter_iff hcm hci).1 hs m hmem)
  | _ => exact hplain hm rfl hs

/-- **A type of known sort is below a union through one of its members.** -/
theorem exists_above_of_sort (hb : Canonical (.union ms)) (hx : x.sort? ≠ none)
    (hs : h.subtype x (.union ms) = true) : ∃ m ∈ ms, h.subtype x m = true := by
  induction x using parts_induction with
  | step x ih =>
    have hplain := plain_of_sort hx
    rw [subtype_eq, decide_eq_false (key_ne_union (isMember_iff.1 hplain.1).1), Bool.false_or] at hs
    cases x with
    | never | unknown | union _ | inter _ => simp [sort?] at hx
    | var name bound =>
      have hvar : (Rules.varSubtype h.answers (.var name bound) bound (.union ms)).run = true := hs
      rw [Rules.run_varSubtype] at hvar
      simp only [isUnion, members, Bool.true_and, Bool.or_eq_true_iff, List.any_eq_true, Option.any_eq_true] at hvar
      rcases hvar with hfound | ⟨c, rfl, hbound⟩
      · exact hfound
      · have hc : c.sort? ≠ none := by
          cases c with
          | union _ => simp [sort?] at hx
          | _ => exact hx
        obtain ⟨m, hm, hcm⟩ := ih c (by simp [parts]) hc hbound
        exact ⟨m, hm, var_subtype_of_bound (hb.part hm) (hb.neat.2.2 m hm) hc hcm⟩
    | _ => simpa [Rules.subtypeRule, Rules.rightSubtype] using hs

/-- Two disjoint types with different keys, neither of them `never`, have disjoint members. -/
theorem members_disjoint (hsame : a.key ≠ b.key) (ha : a.isNever = false) (hb : b.isNever = false)
    (hd : h.disjoint a b = true) : ∀ x ∈ a.members, ∀ m ∈ b.members, h.disjoint x m = true := by
  by_cases hunion : (a.isUnion || b.isUnion) = true
  · have hsame : a.same b = false := Bool.eq_false_iff.2 fun hs => hsame (same_iff.1 hs)
    rw [disjoint_knot, Rules.run_disjointStep] at hd
    simpa [hsame, ha, hb, hunion] using hd
  · obtain ⟨hua, hub⟩ := Bool.or_eq_false_iff.1 (Bool.eq_false_iff.2 hunion)
    simpa [members_of_not_union hua ha, members_of_not_union hub hb] using hd

/-- **Only `never` is both disjoint to a type and below it.** -/
theorem eq_never_of_disjoint (ha : Canonical a) (hb : Canonical b) (hd : h.disjoint a b = true)
    (hs : h.subtype a b = true) : a = .never := by
  have hnever {t : Ty} (ht : t.isNever = true) : t = .never := by
    cases t with
    | never => rfl
    | _ => simp [isNever] at ht
  by_cases hk : a.key = b.key
  · rw [disjoint_knot, Rules.run_disjointStep, if_pos (same_iff.2 hk)] at hd
    exact hnever hd
  cases hna : a.isNever with
  | true => exact hnever hna
  | false =>
    exfalso
    have hnb : b.isNever = false := by
      refine Bool.eq_false_iff.2 fun hnb => ?_
      rw [hnever hnb, subtype_never_iff] at hs
      simp [hs, isNever] at hna
    have hmembers := members_disjoint hk hna hnb hd
    -- a member of the one is below a member of the other
    obtain ⟨x, hx⟩ := ha.exists_mem_members hna
    have hxb := subtype_of_mem_members hk hs hx
    have hplain := (ha.flat.alternative hx)
    obtain ⟨m, hm, hxm⟩ : ∃ m ∈ b.members, h.subtype x m = true := by
      cases b with
      | union ms =>
        obtain ⟨m, hm⟩ := hb.exists_mem_members hnb
        have hm' := hb.flat.alternative hm
        refine exists_above_of_sort hb (sort_of_disjoint ⟨hplain.isUnion, hplain.isNever⟩ ?_ (hmembers x hx m hm)) hxb
        exact ⟨hm'.isUnion, hm'.isNever⟩
      | never => simp [isNever] at hnb
      | _ => exact ⟨_, by simp [members], hxb⟩
    have hplain' := hb.flat.alternative hm
    have hnot := not_subtype_of_disjoint ⟨hplain.isUnion, hplain.isNever⟩ ⟨hplain'.isUnion, hplain'.isNever⟩
      (hmembers x hx m hm)
    simp [hxm] at hnot

end Hierarchy

/-! ## Universes -/

namespace Universe

open Hierarchy

variable {h : Hierarchy} {u v : Universe} {a b : Ty} {classes : Hierarchy}
  {memory : Memory}

/-- The universe answers that two types share no value. -/
def Excludes (u : Universe) (a b : Ty) : Prop := ((TypeStore.disjoint a b : InUniverse Bool).run u).1 = true

theorem Sound.excludes_iff (hu : u.Sound h) (ha : u.Keeps a) (hb : u.Keeps b) :
    u.Excludes a b ↔ h.disjoint a b = true := by
  rw [Excludes, (says_disjoint (hu.stands ha) (hu.stands hb) u hu (.refl h u)).2.2]

/-- **Whether two types exclude each other does not depend on their order, and a type that is excluded by one
that it is below is `never`**, in every universe that comes of a new one by calls with words for names, by
declarations of classes that leave what is remembered right, and by passes over bodies. -/
theorem History.exclusion (hu : u.History) (a b : Ty) (ha : u.Keeps a) (hb : u.Keeps b) :
    (u.Excludes a b ↔ u.Excludes b a) ∧ (u.Excludes a b → u.Below a b → a = .never) := by
  have hsound := hu.sound.1
  rw [hsound.excludes_iff ha hb, hsound.excludes_iff hb ha, hsound.below_iff ha hb]
  exact ⟨by rw [hsound.disjoint_comm ha hb],
    eq_never_of_disjoint (hsound.canonical ha) (hsound.canonical hb)⟩

/-- A shape with a text under the name of the number in the other. -/
def textual : Ty := .object "" [{ name := "a", type := .string }]

def numeric : Ty := .object "" [{ name := "a", type := .number }]

def clashing : List Ty := atoms ++ [textual] ++ [numeric]

theorem clashing_history : (holding clashing).History := by
  have hnew : (holding atoms).History := .new 0
  have htextual := history_object [{ name := "a", type := .string }] hnew (by decide) (by decide) rfl
    (by simp [atoms]) (by decide)
  exact history_object _ htextual (by decide) (by decide) rfl (by simp [atoms]) (by decide)

/-- Two shapes that disagree on a property exclude each other, and none is below the other. -/
theorem clashing_exclusion : (holding clashing).History ∧
    (holding clashing).Keeps textual ∧ (holding clashing).Keeps numeric ∧
      (holding clashing).Excludes textual numeric ∧ (holding clashing).Excludes numeric textual ∧
        ¬ (holding clashing).Below textual numeric := by
  have hkept (t : Ty) (ht : t ∈ clashing) : (holding clashing).Keeps t :=
    (lookup?_holding (by decide)).2 ⟨ht, rfl⟩
  have htextual := hkept textual (by simp [clashing])
  have hnumeric := hkept numeric (by simp [clashing])
  have hexcludes : (holding clashing).Excludes textual numeric := by
    with_unfolding_all rfl
  obtain ⟨hsymm, hnever⟩ := clashing_history.exclusion textual numeric htextual hnumeric
  refine ⟨clashing_history, htextual, hnumeric, hexcludes, hsymm.1 hexcludes, fun hbelow => ?_⟩
  simpa [textual] using hnever hexcludes hbelow

/-! ## An answer that stays -/

/-- The shape of dogs, which have no name. -/
def nameless : Ty := .object "Dog" [{ name := "name", type := .never }]

/-- Asks whether a dog is an animal, declares both, and makes one request more. -/
def unheeding (r : Request) : List Request :=
  [tagging "Animal", .object "Dog" [{ name := "name", type := .never }], .subtype nameless (tagged "Animal")] ++
    declaring ++ [r]

def namelessPets : List Ty := atoms ++ [tagged "Animal"] ++ [nameless]

/-- The question whether a dog is an animal, and the other way round. -/
def dogQuestion : Text × Text := (nameless.key, (tagged "Animal").key)

def animalQuestion : Text × Text := ((tagged "Animal").key, nameless.key)

/-- What is remembered after the question was asked. -/
def unheard : Memory := Memory.remember { capacity := 1 } dogQuestion false

theorem nameless_key_ne : nameless.key ≠ (tagged "Animal").key := by decide

theorem unheard_eq : unheard.capacity = 1 ∧ unheard.uses = (∅ : Std.TreeMap Nat (Text × Text)).insert 0 dogQuestion ∧
    unheard.answers = (∅ : Std.HashMap (Text × Text) (Bool × Nat)).insert dogQuestion (false, 0) ∧
      unheard.clock = 1 := by
  have hsize : (Std.HashMap.insert (∅ : Std.HashMap (Text × Text) (Bool × Nat))
      dogQuestion (false, 0)).size ≤ 1 := Std.HashMap.size_insert_le
  simp [unheard, Memory.remember, Memory.use, hsize]

theorem minEntry_insert (p q : Text × Text) :
    Std.TreeMap.minEntry? (((∅ : Std.TreeMap Nat (Text × Text)).insert 0 p).insert 1 q) = some (0, p) := by
  cbv

/-- Another answer takes the place of the one that was remembered. -/
theorem remember_unheard {q : Text × Text} (hq : q ≠ animalQuestion) :
    (unheard.remember animalQuestion false).answers[q]? = none := by
  obtain ⟨hcapacity, huses, hanswers, hclock⟩ := unheard_eq
  have hne : dogQuestion ≠ animalQuestion := by decide
  have hnew : unheard.answers[animalQuestion]? = none := by
    simp [hanswers, hne]
  have hfull : ¬ (unheard.answers.insert animalQuestion (false, 1)).size ≤ 1 := by
    rw [hanswers]
    simp [Std.HashMap.size_insert, hne]
  rw [Memory.remember, if_neg (by simp [hcapacity])]
  simp only [Memory.use, hnew, hclock, hcapacity, huses, hfull, if_false, Memory.forgetOldest, minEntry_insert]
  simp [hanswers, hq.symm]

theorem serve_nameless : (Request.object "Dog" [{ name := "name", type := .never }]).serve.run
    (keeping (atoms ++ [tagged "Animal"]) classes memory) = (.type nameless, keeping namelessPets classes memory) :=
  serve_shape (by decide) (by decide)

theorem serve_unasked : (Request.subtype nameless (tagged "Animal")).serve.run
    (keeping namelessPets {} { capacity := 1 }) = (.verdict false, keeping namelessPets {} unheard) := by
  obtain ⟨n, hn⟩ := exists_subtypeStep nameless (tagged "Animal")
  rw [Request.serve, StateT.run_bind,
    hn (run_subtypeStep_miss nameless_key_ne Std.HashMap.getElem?_empty rfl) rfl rfl]
  rfl

theorem answerAll_unheeding (r : Request) : answerAll (.new 1) (unheeding r) =
    [.type (tagged "Animal"), .type nameless, .verdict false, .declared (.ok ()), .declared (.ok ()),
      (r.serve.run (keeping namelessPets petClasses unheard)).1] := by
  show answerAll (keeping atoms {} { capacity := 1 }) (unheeding r) = _
  rw [unheeding, declaring]
  simp only [List.cons_append, List.nil_append, answerAll_cons, serve_tagging_animal, serve_nameless,
    serve_unasked, serve_declare_animal, serve_declare_dog]
  rfl

theorem unheeding_proper (a b : Ty) (ha : a ∈ [nameless, tagged "Animal"]) (hb : b ∈ [nameless, tagged "Animal"]) :
    Proper (.new 1) atoms (unheeding (.disjoint a b)) := by
  show Proper (keeping atoms {} { capacity := 1 }) atoms (unheeding (.disjoint a b))
  refine ⟨by simp [Request.types, tagging, atoms], by decide, ?_⟩
  rw [serve_tagging_animal]
  refine ⟨by simp [Request.types, atoms], by decide, ?_⟩
  rw [serve_nameless]
  refine ⟨by simp [Request.types, Reply.types], by simp [Request.names], ?_⟩
  rw [serve_unasked]
  refine ⟨by simp [Request.types], by simp [Request.names], ?_⟩
  rw [serve_declare_animal]
  refine ⟨by simp [Request.types], by simp [Request.names], ?_⟩
  rw [serve_declare_dog]
  refine ⟨fun t ht => ?_, by simp [Request.names], trivial⟩
  have hmem : t ∈ [nameless, tagged "Animal"] := by
    rcases (by simpa [Request.types] using ht : t = a ∨ t = b) with rfl | rfl <;> assumption
  rcases (by simpa using hmem : t = nameless ∨ t = tagged "Animal") with rfl | rfl <;> simp [Reply.types]

/-- Two shapes, of which the first is not below the second, exclude each other if the second is not below the
first either and they disagree on a property. -/
theorem run_disjointStep_shapes {r : Rules InUniverse} {s t : String} {ps qs : List (Property Ty)}
    {below : Bool} {w : Universe} (hne : (Ty.object s ps).key ≠ (Ty.object t qs).key)
    (hab : (r.subtype (.object s ps) (.object t qs)).run u = (false, v))
    (hba : (r.subtype (.object t qs) (.object s ps)).run v = (below, w)) :
    (Rules.disjointStep r (.object s ps) (.object t qs)).run u =
      if below then (false, w) else (Rules.propsDisjoint r ps qs).run w := by
  have hsame : (Ty.object s ps).same (.object t qs) = false := Bool.eq_false_iff.2 fun hs => hne (same_iff.1 hs)
  have hstep : Rules.disjointStep r (.object s ps) (.object t qs) = (do
      if ← r.subtype (.object s ps) (.object t qs) then pure false
      else if ← r.subtype (.object t qs) (.object s ps) then pure false
      else Rules.propsDisjoint r ps qs) := by
    rw [Rules.disjointStep, hsame]
    rfl
  rw [hstep, run_bind_of_run hab, if_neg (by simp), run_bind_of_run hba]
  cases below <;> rfl

/-- A question about two types takes as many steps as one likes to look into. -/
theorem exists_disjointStep (a b : Ty) : ∃ n, ∀ {u w : Universe} {answer : Bool},
    (Rules.disjointStep (Rules.upTo (n + 3)) a b : InUniverse Bool).run u = (answer, w) → u.spent = false →
      w.spent = false → (TypeStore.disjoint a b : InUniverse Bool).run u = (answer, w) := by
  obtain ⟨n, hn⟩ : ∃ n, stepBound [a, b] = n + 4 := Nat.exists_eq_add_of_le' (by
    rw [stepBound]
    nlinarith)
  refine ⟨n, fun hx hu hw => ?_⟩
  rw [TypeStore.disjoint, hn]
  exact run_bounded_of_run hx hu hw

/-- A dog that is remembered to be no animal excludes animals. -/
theorem run_disjoint_nameless :
    ((TypeStore.disjoint nameless (tagged "Animal") : InUniverse Bool).run
      (keeping namelessPets petClasses unheard)).1 = true := by
  obtain ⟨n, hn⟩ := exists_disjointStep nameless (tagged "Animal")
  obtain ⟨hcapacity, -, hanswers, -⟩ := unheard_eq
  have hdog : unheard.answers[(nameless.key, (tagged "Animal").key)]? = some (false, 0) := by
    rw [hanswers]
    exact Std.HashMap.getElem?_insert_self
  have hanimal : (unheard.use dogQuestion false).answers[((tagged "Animal").key, nameless.key)]? = none := by
    have hne : dogQuestion ≠ ((tagged "Animal").key, nameless.key) := by decide
    simp [Memory.use, hanswers, hne]
  have hhit := run_subtypeStep_hit (u := keeping namelessPets petClasses unheard) (Rules.upTo (n + 2))
    nameless_key_ne (by simp [keeping, hcapacity]) hdog
  have hmiss := run_subtypeStep_miss (u := keeping namelessPets petClasses (unheard.use dogQuestion false))
    (r := Rules.upTo (n + 2)) nameless_key_ne.symm hanimal rfl
  have hapart := run_disjointStep_shapes (r := Rules.upTo (n + 3)) nameless_key_ne hhit hmiss
  rw [hn hapart rfl rfl]

/-- Once it is asked the other way round, the answer is forgotten and found again. -/
theorem run_disjoint_animal :
    ((TypeStore.disjoint (tagged "Animal") nameless : InUniverse Bool).run
      (keeping namelessPets petClasses unheard)).1 = false := by
  obtain ⟨n, hn⟩ := exists_disjointStep (tagged "Animal") nameless
  have hanimal : unheard.answers[((tagged "Animal").key, nameless.key)]? = none := by
    have hne : dogQuestion ≠ ((tagged "Animal").key, nameless.key) := by decide
    simp [unheard_eq.2.2.1, hne]
  have hmiss := run_subtypeStep_miss (u := keeping namelessPets petClasses unheard)
    (r := Rules.upTo (n + 2)) nameless_key_ne.symm hanimal rfl
  -- the properties of a dog are those of an animal
  have hproperty := run_subtypeStep_miss (a := .never) (b := .string)
    (u := keeping namelessPets petClasses (unheard.remember animalQuestion false))
    (r := Rules.upTo (n + 1)) (by decide) (remember_unheard (by decide)) rfl
  have hrule : (Rules.subtypeRule (Rules.upTo (n + 2)) nameless (tagged "Animal") : InUniverse Bool).run
      (keeping namelessPets petClasses (unheard.remember animalQuestion false)) =
        ((do if ← Rules.subtypeStep (Rules.upTo (n + 1)) .never .string then pure true else pure false) :
          InUniverse Bool).run (keeping namelessPets petClasses (unheard.remember animalQuestion false)) := rfl
  have hforgotten := run_subtypeStep_miss nameless_key_ne (remember_unheard (by decide))
    (hrule.trans (run_bind_of_run hproperty))
  have hbelow := run_disjointStep_shapes (r := Rules.upTo (n + 3)) nameless_key_ne.symm hmiss hforgotten
  rw [hn hbelow rfl rfl]

/-- **A dog that is remembered to be no animal excludes animals, which do not exclude it**: the answer that
became wrong is forgotten for another one before it would be given again. -/
theorem stale_asymmetric :
    Proper (.new 1) atoms (unheeding (.disjoint nameless (tagged "Animal"))) ∧
    Proper (.new 1) atoms (unheeding (.disjoint (tagged "Animal") nameless)) ∧
    answerAll (.new 1) (unheeding (.disjoint nameless (tagged "Animal"))) =
      [.type (tagged "Animal"), .type nameless, .verdict false, .declared (.ok ()), .declared (.ok ()),
        .verdict true] ∧
    answerAll (.new 1) (unheeding (.disjoint (tagged "Animal") nameless)) =
      [.type (tagged "Animal"), .type nameless, .verdict false, .declared (.ok ()), .declared (.ok ()),
        .verdict false] := by
  have hserve (a b : Ty) (u : Universe) : ((Request.serve (.disjoint a b)).run u).1 =
      .verdict ((TypeStore.disjoint a b : InUniverse Bool).run u).1 := rfl
  refine ⟨unheeding_proper _ _ (by simp) (by simp), unheeding_proper _ _ (by simp) (by simp), ?_, ?_⟩
  · rw [answerAll_unheeding, hserve, run_disjoint_nameless]
  · rw [answerAll_unheeding, hserve, run_disjoint_animal]

end Universe
end FlowTyping
