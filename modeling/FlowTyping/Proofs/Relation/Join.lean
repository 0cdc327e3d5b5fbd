import FlowTyping.Proofs.Relation.Units
import FlowTyping.Proofs.Store.Represented
import FlowTyping.Proofs.Store.Ideal

/-!
# Unions are least upper bounds

In a universe whose names are words, a union of entries is below a type exactly if each of the entries
is. Three things make this more than reading off a rule: a literal vanishes beside its atom, both
booleans become `boolean`, and one tree stands for all types of a key.

* **`Hierarchy.boolean_subtype`** — what is above both booleans is above `boolean`.
* **`Universe.Sound.union_subtype_iff`** — the statement for the entries of a universe.
* **`Session.run_union_least`** — the same for the answers that a universe gives after a session.
-/

namespace FlowTyping

namespace Hierarchy

open Ty

variable {h : Hierarchy} {a c m : Ty}

/-- What is below a member is below the type. -/
theorem subtype_of_subtype_member (ha : a.isMember = true) (hm : m ∈ c.members)
    (hs : h.subtype a m = true) : h.subtype a c = true := by
  have ha := isMember_iff.1 ha
  cases c with
  | never => simp [members] at hm
  | union ms => exact h.subtype_union_of_mem ha.1 ha.2.2 hm hs
  | _ => rwa [List.mem_singleton.1 hm] at hs

theorem eq_bool_of_key_eq {b : Bool} (hk : m.key = (Ty.literal (.bool b)).key) :
    m = .literal (.bool b) := by
  obtain ⟨l, rfl, hbase⟩ := literal_of_key_eq hk
  cases l with
  | bool b' => cases b <;> cases b' <;> first | rfl | exact absurd hk (by decide)
  | _ => simp [Literal.base] at hbase

/-- A shape that one of the booleans fits asks for no property. -/
theorem boolean_subtype_object {b : Bool} {tag : String} {props : List (Property Ty)}
    (hs : h.subtype (.literal (.bool b)) (.object tag props) = true) :
    h.subtype .boolean (.object tag props) = true := by
  have hnone (t : Ty) (ht : t = .boolean ∨ t = .literal (.bool b)) (name : Text) :
      (h.answers.propertyOf t name).run = none := by
    rw [Ideal.run_answers_propertyOf, propertyOf_knot]
    rcases ht with rfl | rfl <;> simp [Rules.propertyStep]
  obtain ⟨-, rfl⟩ := unit_subtype_object rfl hs
  rw [subtype_eq, decide_eq_false (unit_key_ne rfl rfl), Bool.false_or] at hs
  have hs : (Rules.objectSubtype h.answers (.literal (.bool b)) "" props).run = true := hs
  rw [Rules.run_objectSubtype _ _ (by simp) (by simp), Bool.and_eq_true,
    Rules.propsSubtype_iff] at hs
  refine h.subtype_of_rule ?_
  show (Rules.objectSubtype h.answers .boolean "" props).run = true
  rw [Rules.run_objectSubtype _ _ (by simp) (by simp), Bool.and_eq_true, Rules.propsSubtype_iff]
  refine ⟨rfl, fun pb hpb => ?_⟩
  have hpb := hs.2 pb hpb
  rw [hnone _ (.inr rfl)] at hpb
  rw [hnone _ (.inl rfl)]
  exact hpb

/-- What is above both booleans is above `boolean`, unless both of them are its members. -/
theorem boolean_subtype (hc : Canonical c) (hno : ¬ ∀ b, Ty.literal (.bool b) ∈ c.members)
    (hs : ∀ b, h.subtype (.literal (.bool b)) c = true) : h.subtype .boolean c = true := by
  by_contra hboolean
  refine hno fun b => ?_
  obtain ⟨m, hm, hbm⟩ := (unit_subtype_members rfl).1 (hs b)
  have hnot : ¬ h.subtype .boolean m = true :=
    fun hsub => hboolean (subtype_of_subtype_member rfl hm hsub)
  have hunion : m.isUnion = false := (hc.flat.alternative hm).isUnion
  rcases above_unit rfl (hc.member hm) hunion hbm with hstands | rfl | hobject
  · rcases hstands with hk | ⟨l, hl, rfl⟩
    · exact eq_bool_of_key_eq hk ▸ hm
    · obtain rfl := Ty.literal.inj hl
      exact absurd (h.subtype_self .boolean) hnot
  · exact absurd (h.subtype_unknown _) hnot
  · cases m with
    | object tag props => exact absurd (boolean_subtype_object hbm) hnot
    | _ => simp [isObject] at hobject

/-- A type is below another if its members are. -/
theorem subtype_of_members_subtype {t : Ty} (ht : Canonical t)
    (hm : ∀ m ∈ t.members, h.subtype m c = true) : h.subtype t c = true := by
  cases t with
  | never => exact h.never_subtype c
  | union ms =>
    obtain ⟨hlen, -, hmember⟩ := ht.neat
    refine h.union_subtype ?_ hm
    cases hn : c.isNever with
    | false => rfl
    | true =>
      obtain ⟨m, hmem⟩ := List.exists_mem_of_length_pos (show 0 < ms.length by omega)
      obtain rfl : c = .never := by
        cases c with
        | never => rfl
        | _ => simp [isNever] at hn
      have hnever := (h.subtype_never_iff).1 (hm m hmem)
      have := isMember_iff.1 (hmember m hmem)
      simp [hnever, isNever] at this
  | _ => exact hm _ (by simp [members])

end Hierarchy

namespace Ty

/-- The alternatives of a flat type are its members. -/
theorem Flat.mem_members {t x : Ty} (ht : t.Flat) (hx : Alternative x t) : x ∈ t.members := by
  cases hx with
  | self hu hn => rw [members_of_not_union hu hn]; exact List.mem_singleton.2 rfl
  | @member m ms hm hx =>
    have hmember := isMember_iff.1 (ht m hm)
    obtain ⟨rfl, -⟩ := (Alternative.iff_of_not_union hmember.1).1 hx
    exact hm

end Ty

namespace Universe

open Ty Hierarchy

variable {h : Hierarchy} {u : Universe} {c s t x : Ty} {ts : List Ty}

/-- What a tree stands for makes no difference to what is below it. -/
theorem Sound.subtype_congr (hu : u.Sound h) (ht : u.Keeps t) (hc : u.Keeps c) (hs : u.Stands c s) :
    h.subtype t s = h.subtype t c :=
  (says_subtype (hu.stands ht) hs).unique hu (says_subtype (hu.stands ht) (hu.stands hc))

theorem Sound.keeps_alternative (hu : u.Sound h) (ht : u.Keeps t) (hx : Alternative x t) : u.Keeps x :=
  hx.of_union_closed (fun _ hms m hm => hu.part hms m hm) ht

/-- The members of a union of entries are entries. -/
theorem Sound.keeps_members_union (hu : u.Sound h) (hts : ∀ t ∈ ts, u.Keeps t)
    (hx : x ∈ (h.union ts).members) : u.Keeps x := by
  rcases of_mem_members_union hx with ⟨t, ht, halt⟩ | ⟨rfl, -⟩
  · exact hu.keeps_alternative (hts t ht) halt
  · exact hu.atom (by simp [atoms])

/-- Each alternative of an entry that is below another is below it too. -/
theorem Sound.alternative_subtype (hu : u.Sound h) (ht : u.Keeps t) (hc : u.Keeps c)
    (hs : h.subtype t c = true) (hx : Alternative x t) : h.subtype x c = true := by
  have hflat := (hu.canonical ht).flat
  have hmem := hflat.mem_members hx
  by_cases hk : t.key = c.key
  · obtain rfl := ht.eq_of_key_eq hc hk
    cases t with
    | never => simp [members] at hmem
    | union ms => exact subtype_of_subtype_member (hflat x hmem) hmem (h.subtype_self x)
    | _ => rw [List.mem_singleton.1 hmem, h.subtype_self]
  · exact subtype_of_mem_members hk hs hmem

/-- The booleans are not both members of an entry. -/
theorem Sound.not_both_mem (hu : u.Sound h) (hc : u.Keeps c) :
    ¬ ∀ b, Ty.literal (.bool b) ∈ c.members := by
  intro hboth
  cases c with
  | never => simp [members] at hboth
  | union ms =>
    have hform : UnionForm ms := hu.orderly hc
    exact hform.not_both hboth
  | _ =>
    have htrue := List.mem_singleton.1 (hboth true)
    have hfalse := List.mem_singleton.1 (hboth false)
    simp [← htrue] at hfalse

/-- A union of entries is below an entry exactly if all of them are. -/
theorem Sound.union_subtype_iff (hu : u.Sound h) (hts : ∀ t ∈ ts, u.Keeps t) (hc : u.Keeps c) :
    h.subtype (h.union ts) c = true ↔ ∀ t ∈ ts, h.subtype t c = true := by
  constructor
  · intro hs t ht
    have hcanonical := hu.canonical (hts t ht)
    by_cases hk : (h.union ts).key = c.key
    · -- the entry is the tree that stands for the union
      have hnamed := (yields_union (hu.stands_all hts) u hu (.refl h u)).2.2.named
      rw [← hu.subtype_congr (hts t ht) hc ⟨hk ▸ hc, hnamed⟩]
      exact subtype_union hcanonical ht
    · refine subtype_of_members_subtype hcanonical fun x hx => ?_
      have halt := hcanonical.flat.alternative hx
      rcases exists_mem_members_union (h := h) ht halt with hunknown | ⟨m, hm, hmx⟩
      · rw [hunknown] at hs
        rw [eq_unknown_of_subtype hs, h.subtype_unknown]
      · have hmc := subtype_of_mem_members hk hs hm
        rcases hmx with hkey | ⟨l, rfl, rfl⟩
        · have hmx := (hu.keeps_members_union hts hm).eq_of_key_eq
            (hu.keeps_alternative (hts t ht) halt) hkey
          rwa [← hmx]
        · exact literal_subtype_of_base hmc
  · intro hall
    refine subtype_of_members_subtype (union_canonical fun t ht => hu.canonical (hts t ht))
      fun m hm => ?_
    rcases of_mem_members_union hm with ⟨t, ht, halt⟩ | ⟨rfl, hboth⟩
    · exact hu.alternative_subtype (hts t ht) hc (hall t ht) halt
    · refine boolean_subtype (hu.canonical hc) (hu.not_both_mem hc) fun b => ?_
      obtain ⟨t, ht, y, halt, hk⟩ := hboth b
      obtain rfl := eq_bool_of_key_eq hk
      exact hu.alternative_subtype (hts t ht) hc (hall t ht) halt

end Universe

namespace Session

open Universe

/-- After every session with words for names, a union of types that were answered is the least upper
bound of them: the universe answers that it is below a type exactly if it answers so for each of them,
and each of them is below it. -/
theorem run_union_least (memory : Nat) (calls : List Call) (hcalls : (start memory).Proper calls)
    (ts : List Ty) (hts : ∀ t ∈ ts, t ∈ ((start memory).run calls).answered) :
    (∀ c ∈ ((start memory).run calls).answered,
      (((do TypeStore.subtype (← TypeStore.union ts) c) : InUniverse Bool).run
          ((start memory).run calls).store).1 = true ↔
        ∀ t ∈ ts, ((TypeStore.subtype t c : InUniverse Bool).run
          ((start memory).run calls).store).1 = true) ∧
      ∀ t ∈ ts, (((do TypeStore.subtype t (← TypeStore.union ts)) : InUniverse Bool).run
        ((start memory).run calls).store).1 = true := by
  obtain ⟨h, hu, hanswered⟩ := run_sound (start_sound memory) hcalls
  generalize (start memory).run calls = s at hu hanswered hts
  have hkeeps (t) (ht : t ∈ ts) : s.store.Keeps t := hanswered t (hts t ht)
  have hunion := @yields_union h s.store ts ts (hu.stands_all hkeeps)
  refine ⟨fun c hc => ?_, fun t ht => ?_⟩
  · have hc := hanswered c hc
    have hbelow : s.store.Says h (do TypeStore.subtype (← TypeStore.union ts) c)
        (h.subtype (h.union ts) c) :=
      hunion.bind fun v j hv huv hj => says_subtype hj (hv.stands (huv.keeps hc))
    have heach (t) (ht : t ∈ ts) : ((TypeStore.subtype t c : InUniverse Bool).run s.store).1 =
        h.subtype t c :=
      (says_subtype (hu.stands (hkeeps t ht)) (hu.stands hc) s.store hu (.refl h _)).2.2
    rw [(hbelow s.store hu (.refl h _)).2.2, hu.union_subtype_iff hkeeps hc]
    exact forall₂_congr fun t ht => by rw [heach t ht]
  · have habove : s.store.Says h (do TypeStore.subtype t (← TypeStore.union ts))
        (h.subtype t (h.union ts)) :=
      hunion.bind fun v j hv huv hj => says_subtype (hv.stands (huv.keeps (hkeeps t ht))) hj
    rw [(habove s.store hu (.refl h _)).2.2]
    exact Hierarchy.subtype_union (hu.canonical (hkeeps t ht)) ht

theorem meeting_union_least : (start 0).Proper meeting ∧
    (((do TypeStore.subtype (.var "T" none) (← TypeStore.union [.var "T" none, .string])) :
      InUniverse Bool).run ((start 0).run meeting).store).1 = true := by
  have hvar : Ty.var "T" none ∈ ((start 0).run meeting).answered := by
    refine List.mem_append_right _ ?_
    rw [call_typeVar]
    simp
  have hstring : Ty.string ∈ ((start 0).run meeting).answered := by
    refine List.mem_append_right _ ?_
    rw [call_typeVar]
    simp [Ty.atoms]
  refine ⟨meeting_proper, (run_union_least 0 meeting meeting_proper [.var "T" none, .string] ?_).2 _ ?_⟩
  · simp [hvar, hstring]
  · simp

end Session

/-! ## Names that are no words -/

theorem Ty.sortByKey_of_pairwise {ts : List Ty} (hts : ts.Pairwise fun a b => a.key ≤ b.key) :
    sortByKey ts = ts := by
  rw [sortByKey, List.mergeSort_of_pairwise]
  · simp [Function.comp_def]
  · rw [List.pairwise_map]
    simpa using hts

/-- Types in the strict order of their keys are sorted. -/
theorem Ty.sortByKey_of_increasing {ts : List Ty} (hts : ts.Pairwise fun a b => a.key < b.key) :
    Ty.sortByKey ts = ts :=
  Ty.sortByKey_of_pairwise (hts.imp fun hlt => Text.le_of_not_lt fun hgt => Text.lt_irrefl _ (Text.lt_trans hlt hgt))

/-- Types with different keys are sorted alike, whatever their order. -/
theorem Ty.sortByKey_congr {ts us : List Ty} (hp : ts.Perm us) (hk : (ts.map key).Nodup) :
    sortByKey ts = sortByKey us := by
  have hk' : (us.map key).Nodup := (hp.map key).nodup_iff.1 hk
  have hsorted : (sortByKey ts).Perm (sortByKey us) :=
    (sortByKey_perm ts).trans (hp.trans (sortByKey_perm us).symm)
  refine hsorted.eq_of_pairwise ?_ (sortByKey_increasing hk) (sortByKey_increasing hk')
  exact fun x y _ _ hxy hyx => absurd (Text.lt_trans hxy hyx) (Text.lt_irrefl _)

namespace Universe

open Ty

variable {ts : List Ty}

/-- A union of two members or more is interned after both booleans. -/
theorem run_union_of_simplified {flat ms : List Ty} {a b : Ty} {u : Universe}
    (hflat : alternativesAll ts = some flat) (hms : simplified flat = a :: b :: ms) :
    (TypeStore.union ts : InUniverse Ty).run u =
      ((u.intern (.literal (.bool true))).2.intern (.literal (.bool false))).2.intern
        (.union (sortByKey (a :: b :: ms))) := by
  rw [TypeStore.union, hflat]
  show (TypeStore.unionOf (simplified flat) : InUniverse Ty).run
    ((u.intern (.literal (.bool true))).2.intern (.literal (.bool false))).2 = _
  rw [hms]
  generalize ((u.intern (.literal (.bool true))).2.intern (.literal (.bool false))).2 = v
  rfl

/-- Where both booleans are entries, only the union is interned. -/
theorem run_union_holding {flat ms ns entries : List Ty} {a b : Ty} (hnodup : (entries.map Ty.key).Nodup)
    (hbools : ∀ b, Ty.literal (.bool b) ∈ entries) (hflat : alternativesAll ts = some flat)
    (hms : simplified flat = a :: b :: ms) (hsorted : sortByKey (a :: b :: ms) = ns) :
    (TypeStore.union ts : InUniverse Ty).run (holding entries) = (holding entries).intern (.union ns) := by
  rw [run_union_of_simplified hflat hms, hsorted, intern_of_mem hnodup (hbools true) rfl,
    intern_of_mem hnodup (hbools false) rfl]

/-- A union of one member is that member, after both booleans are interned. -/
theorem run_union_of_one {ts flat : List Ty} {t : Ty} {u : Universe} (hflat : alternativesAll ts = some flat)
    (ht : simplified flat = [t]) :
    (TypeStore.union ts : InUniverse Ty).run u =
      (t, ((u.intern (.literal (.bool true))).2.intern (.literal (.bool false))).2) := by
  rw [TypeStore.union, hflat]
  show (TypeStore.unionOf (simplified flat) : InUniverse Ty).run
    ((u.intern (.literal (.bool true))).2.intern (.literal (.bool false))).2 = _
  rw [ht]
  rfl

/-- Where both booleans are entries, a union of two members or more is looked up by its key. -/
theorem run_union_of_sorted {ts us ms : List Ty} {a b : Ty} (hts : (ts.map Ty.key).Nodup)
    (hbool : ∀ b, .literal (.bool b) ∈ ts) (hflat : alternativesAll us = some us)
    (hms : Ty.simplified us = a :: b :: ms) (hsorted : (a :: b :: ms).Pairwise fun a b => a.key ≤ b.key) :
    (TypeStore.union us : InUniverse Ty).run (holding ts) = (holding ts).intern (.union (a :: b :: ms)) :=
  run_union_holding hts hbool hflat hms (Ty.sortByKey_of_pairwise hsorted)

end Universe

namespace Session

open Universe

/-- A shape with one property, whose name looks like the end of one shape and the start of another. -/
def disguised : Ty := .object "" [{ name := "a:string;\x7d|obj<>\x7bb", type := .number }]

def shapeA : Ty := .object "" [{ name := "a", type := .string }]

def shapeB : Ty := .object "" [{ name := "b", type := .number }]

/-- Makes the union of `null` and the disguised shape, then the two shapes that it looks like. -/
def collision : List Call :=
  [.object "" [{ name := "a:string;\x7d|obj<>\x7bb", type := .number }], .union [.null, disguised],
    .object "" [{ name := "a", type := .string }], .object "" [{ name := "b", type := .number }]]

/-- A new shape with one property becomes an entry and is answered. -/
theorem call_object {ts answered : List Ty} {tag : String} {p : Property Ty}
    (hts : (ts.map Ty.key).Nodup) (hnew : (Ty.object tag [p]).key ∉ ts.map Ty.key) :
    ({ store := holding ts, answered } : Session).call (.object tag [p]) =
      { store := holding (ts ++ [.object tag [p]]), answered := .object tag [p] :: answered } := by
  show ({ store := ((holding ts).intern (.object tag [p])).2
          answered := [((holding ts).intern (.object tag [p])).1] ++ answered } : Session) = _
  rw [intern_of_not_mem hts hnew]
  rfl

theorem call_union {ts answered us : List Ty} {t : Ty} {u : Universe}
    (hrun : (TypeStore.union us : InUniverse Ty).run (holding ts) = (t, u)) :
    ({ store := holding ts, answered } : Session).call (.union us) = { store := u, answered := t :: answered } := by
  show ({ store := ((TypeStore.union us : InUniverse Ty).run _).2
          answered := [((TypeStore.union us : InUniverse Ty).run _).1] ++ answered } : Session) = _
  rw [hrun]
  rfl

/-- The entries after the union was made. -/
def disguisedEntries : List Ty :=
  Ty.atoms ++ [disguised] ++ [.literal (.bool true)] ++ [.literal (.bool false)] ++
    [.union [.null, disguised]]

theorem sortByKey_disguised : Ty.sortByKey [.null, disguised] = [.null, disguised] :=
  Ty.sortByKey_of_pairwise (by with_unfolding_all decide)

theorem run_union_disguised : (TypeStore.union [.null, disguised] : InUniverse Ty).run
    (holding (Ty.atoms ++ [disguised])) = (.union [.null, disguised], holding disguisedEntries) := by
  have hsimplified : Ty.simplified [.null, disguised] = [.null, disguised] := rfl
  rw [run_union_of_simplified rfl hsimplified, sortByKey_disguised, intern_of_not_mem (by decide) (by decide),
    intern_of_not_mem (by decide) (by decide), intern_of_not_mem (by decide) (by decide), disguisedEntries]

/-- The entries after all calls. -/
def collisionEntries : List Ty := disguisedEntries ++ [shapeA] ++ [shapeB]

theorem run_collision : (start 0).run collision =
    { store := holding collisionEntries
      answered := [shapeB, shapeA, .union [.null, disguised], disguised] ++ Ty.atoms } := by
  have hstart : start 0 = { store := holding Ty.atoms, answered := Ty.atoms } := rfl
  rw [hstart, collision]
  simp only [run, List.foldl]
  rw [call_object (by decide) (by decide), ← disguised, call_union run_union_disguised,
    call_object (by decide) (by decide), ← shapeA, call_object (by decide) (by decide), ← shapeB,
    collisionEntries]
  rfl

theorem sortByKey_shapes : Ty.sortByKey [.null, shapeA, shapeB] = [.null, shapeA, shapeB] :=
  Ty.sortByKey_of_pairwise (by with_unfolding_all decide)

/-- The union of `null` and the two shapes has the key of the one with the disguised shape. -/
theorem run_union_collision : (TypeStore.union [.null, shapeA, shapeB] : InUniverse Ty).run
    (holding collisionEntries) = (.union [.null, disguised], holding collisionEntries) := by
  have hsimplified : Ty.simplified [.null, shapeA, shapeB] = [.null, shapeA, shapeB] := rfl
  have hkey : (Ty.union [.null, shapeA, shapeB]).key = (Ty.union [.null, disguised]).key := by decide
  have hnodup : (collisionEntries.map Ty.key).Nodup := by decide
  rw [run_union_holding hnodup (by simp [collisionEntries, disguisedEntries]) rfl hsimplified sortByKey_shapes]
  exact intern_of_mem hnodup (by simp [collisionEntries, disguisedEntries]) hkey

/-- The union of `null` and two shapes is the one that was made before under the same key, and the first
of the shapes is not below it. -/
theorem collision_not_above :
    (∀ t ∈ [.null, shapeA, shapeB], t ∈ ((start 0).run collision).answered) ∧
      (((do TypeStore.subtype shapeA (← TypeStore.union [.null, shapeA, shapeB])) :
        InUniverse Bool).run ((start 0).run collision).store).1 = false := by
  rw [run_collision]
  refine ⟨by simp [Ty.atoms], ?_⟩
  rw [run_bind_of_run run_union_collision]
  rfl

end Session
end FlowTyping
