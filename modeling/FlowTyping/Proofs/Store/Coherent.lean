import FlowTyping.Proofs.Relation.Units
import FlowTyping.Proofs.Relation.Untagged
import FlowTyping.Proofs.Ty.Lucid

/-!
# Universes that hold anything

Names may be any texts. Two types of different forms may then have one key, and a universe keeps whichever came
first; so what it answers about a type may be about another. This module says what can be relied on all the same:
the entries of lucid types are in order, and answers about them are the plain answers.

* **`Universe.Coherent`** — entries are kept under their own keys with all their parts; and unless the question at
  hand ran out of steps, lucid intersections are settled and what is remembered of lucid types is right.
* **`Universe.Tracks`** — a computation keeps the universe coherent; it comes to the plain value of another
  computation if a condition holds and the steps suffice, and they suffice under a second condition.
  **`Tracks.bind`** follows the two computations step by step.
* **`Universe.tracks_intern`**, **`Universe.tracks_union`** — making types: a lucid one is what it would be without
  a store, if it is an entry already or the only type with its key.
-/

namespace FlowTyping

open Ty

/-- No classes at all. Lucid types are related in the same way whatever classes there are. -/
abbrev noClasses : Hierarchy := {}

namespace Ty.Lucid

variable {a b t : Ty}

theorem untagged (ht : Lucid t) : Untagged t := by
  induction ht with
  | intro hown _ ih =>
    refine .intro (fun tag props heq => ?_) ih
    subst heq
    exact hown.1

theorem subtype_eq (ha : Lucid a) (hb : Lucid b) (h : Hierarchy) : h.subtype a b = noClasses.subtype a b :=
  Hierarchy.subtype_eq_of_lineage untagged_hereditary (untagged_lineage h _) ha.untagged hb.untagged

end Ty.Lucid

namespace Universe

variable {u v w : Universe} {t s : Ty}

/-- No other tree stands under the key. -/
def Clear (u : Universe) (t : Ty) : Prop := ∀ s, u.lookup? t.key = some s → s = t

/-- An answer is right for the lucid types of the two keys, unless other trees stand under them. -/
def Fits (u : Universe) (question : Text × Text) (answer : Bool) : Prop :=
  ∀ a b : Ty, Lucid a → Lucid b → question = (a.key, b.key) → u.Clear a → u.Clear b →
    answer = noClasses.subtype a b

/-- The members of an intersection stand in order and do not combine. -/
structure Standing (ms : List Ty) : Prop where
  form : InterForm ms
  settled : SettledIn noClasses ms

/-- A universe whose entries stand under their own keys with all their parts. Unless the question at hand has run
out of steps, what it keeps and remembers of lucid types can be relied on. -/
structure Coherent (u : Universe) : Prop where
  key_eq : ∀ {k : Text} {t : Ty}, u.lookup? k = some t → t.key = k
  part : ∀ {t : Ty}, u.Keeps t → ∀ s ∈ t.parts, u.Keeps s
  atom : ∀ {t : Ty}, t ∈ atoms → u.Keeps t
  shape : ∀ c ∈ u.classes.classes, ∀ t ∈ c.shape, u.Keeps t
  orderly : ∀ {t : Ty}, u.Keeps t → t.isInter = false → t.Orderly
  standing : u.spent = false → ∀ {ms : List Ty}, u.Keeps (.inter ms) → (∀ m ∈ ms, Lucid m) → Standing ms
  right : u.spent = false → u.memory.Each u.Fits

/-- What may come of a universe: entries stay, and steps that ran out stay so. -/
structure Onward (u v : Universe) : Prop where
  lookup? : ∀ {k : Text} {t : Ty}, u.lookup? k = some t → v.lookup? k = some t
  spent : u.spent = true → v.spent = true

namespace Onward

theorem refl (u : Universe) : u.Onward u := ⟨id, id⟩

theorem trans (huv : u.Onward v) (hvw : v.Onward w) : u.Onward w :=
  ⟨fun h => hvw.lookup? (huv.lookup? h), fun h => hvw.spent (huv.spent h)⟩

theorem keeps (huv : u.Onward v) (ht : u.Keeps t) : v.Keeps t := huv.lookup? ht

theorem unspent (huv : u.Onward v) (hv : v.spent = false) : u.spent = false := by
  cases hu : u.spent with
  | false => rfl
  | true => exact absurd (huv.spent hu) (by simp [hv])

end Onward

theorem Keeps.clear (ht : u.Keeps t) : u.Clear t := fun _ hs => Option.some.inj (hs.symm.trans ht)

/-! ## Following computations -/

section Tracks

variable {α β γ : Type} {C C' K K' : Prop} {x x' : InUniverse α} {y y' : Ideal noClasses α}
  {Q Q' : Universe → α → Prop} {P : Universe → β → Prop}

/-- In this universe and in every one that comes of it, the first computation keeps the universe coherent and ends
with a result of which `Q` holds. Under the condition `C` the result is the plain value of the second one, unless
steps ran out; under `K` they do not. -/
def Tracks (u : Universe) (C K : Prop) (x : InUniverse α) (y : Ideal noClasses α) (Q : Universe → α → Prop) : Prop :=
  ∀ v : Universe, v.Coherent → u.Onward v →
    (x.run v).2.Coherent ∧ v.Onward (x.run v).2 ∧ Q (x.run v).2 (x.run v).1 ∧
      ((x.run v).2.spent = false → C → (x.run v).1 = y.run) ∧
        (K → v.spent = false → (x.run v).2.spent = false)

/-- The same of a computation with a result that holds no types. -/
abbrev Decides (u : Universe) (C K : Prop) (x : InUniverse α) (y : Ideal noClasses α) : Prop :=
  u.Tracks C K x y fun _ _ => True

namespace Tracks

theorem onward (hx : u.Tracks C K x y Q) (huv : u.Onward v) : v.Tracks C K x y Q :=
  fun w hw hvw => hx w hw (huv.trans hvw)

theorem of_coherent (hx : ∀ v : Universe, v.Coherent → u.Onward v → v.Tracks C K x y Q) : u.Tracks C K x y Q :=
  fun v hv huv => hx v hv huv v hv (.refl v)

theorem pure {a : α} (hy : u.spent = false → C → a = y.run) (hq : ∀ v : Universe, v.Coherent → u.Onward v → Q v a) :
    u.Tracks C K (Pure.pure a) y Q :=
  fun v hv huv => ⟨hv, .refl v, hq v hv huv, fun hs => hy (huv.unspent hs), fun _ hs => hs⟩

theorem bind {f : α → InUniverse β} {g : α → Ideal noClasses β} (hx : u.Tracks C K x y Q)
    (hf : ∀ (v : Universe) (a : α), v.Coherent → u.Onward v → Q v a → (v.spent = false → C → a = y.run) →
      v.Tracks C K (f a) (g a) P) : u.Tracks C K (x >>= f) (y >>= g) P := by
  intro v hv huv
  obtain ⟨hw, hvw, hq, hsame, hsteady⟩ := hx v hv huv
  obtain ⟨hw', hww', hq', hsame', hsteady'⟩ := hf _ _ hw (huv.trans hvw) hq hsame _ hw (.refl _)
  refine ⟨hw', hvw.trans hww', hq', fun hspent hC => ?_, fun hK hspent => hsteady' hK (hsteady hK hspent)⟩
  rw [Ideal.run_bind, ← hsame (hww'.unspent hspent) hC]
  exact hsame' hspent hC

/-- A step that only the universe takes. -/
theorem aside {f : α → InUniverse β} {z : Ideal noClasses β} (hx : u.Tracks False K x y Q)
    (hf : ∀ (v : Universe) (a : α), v.Coherent → u.Onward v → Q v a → v.Tracks C K (f a) z P) :
    u.Tracks C K (x >>= f) z P := by
  intro v hv huv
  obtain ⟨hw, hvw, hq, -, hsteady⟩ := hx v hv huv
  obtain ⟨hw', hww', hq', hsame', hsteady'⟩ := hf _ _ hw (huv.trans hvw) hq _ hw (.refl _)
  exact ⟨hw', hvw.trans hww', hq', hsame', fun hK hspent => hsteady' hK (hsteady hK hspent)⟩

theorem weaken (hx : u.Tracks C' K' x y Q) (hC : u.spent = false → C → C') (hK : u.spent = false → K → K') :
    u.Tracks C K x y Q := by
  intro v hv huv
  obtain ⟨hw, hvw, hq, hsame, hsteady⟩ := hx v hv huv
  exact ⟨hw, hvw, hq, fun hspent h => hsame hspent (hC (huv.unspent (hvw.unspent hspent)) h),
    fun h hspent => hsteady (hK (huv.unspent hspent) h) hspent⟩

theorem imp (hx : u.Tracks C K x y Q)
    (hq : ∀ (v : Universe) (a : α), v.Coherent → u.Onward v → Q v a → (v.spent = false → C → a = y.run) → Q' v a) :
    u.Tracks C K x y Q' := by
  intro v hv huv
  obtain ⟨hw, hvw, h, hsame, hsteady⟩ := hx v hv huv
  exact ⟨hw, hvw, hq _ _ hw (huv.trans hvw) h hsame, hsame, hsteady⟩

/-- Another computation with the same plain value. -/
theorem congr (hx : u.Tracks C K x y Q) (hy : y.run = y'.run) : u.Tracks C K x y' Q := by
  intro v hv huv
  obtain ⟨hw, hvw, hq, hsame, hsteady⟩ := hx v hv huv
  exact ⟨hw, hvw, hq, fun hspent hC => (hsame hspent hC).trans hy, hsteady⟩

/-- What a computation does to the universe, whatever its value. -/
theorem effect (hx : u.Tracks C K x y Q) : u.Tracks False K x y' Q := by
  intro v hv huv
  obtain ⟨hw, hvw, hq, -, hsteady⟩ := hx v hv huv
  exact ⟨hw, hvw, hq, fun _ => False.elim, hsteady⟩

theorem cond {c : InUniverse Bool} {d : Ideal noClasses Bool} (hc : u.Decides C K c d) (hx : u.Tracks C K x y Q)
    (hx' : u.Tracks C K x' y' Q) :
    u.Tracks C K (c >>= fun b => if b = true then x else x') (d >>= fun b => if b = true then y else y') Q := by
  refine hc.bind fun v b _ huv _ _ => ?_
  cases b with
  | true => exact hx.onward huv
  | false => exact hx'.onward huv

theorem anyM {p : γ → InUniverse Bool} {q : γ → Ideal noClasses Bool} {xs : List γ}
    (hp : ∀ x ∈ xs, u.Decides C K (p x) (q x)) : u.Decides C K (xs.anyM p) (xs.anyM q) := by
  induction xs generalizing u with
  | nil => exact .pure (fun _ _ => rfl) fun _ _ _ => trivial
  | cons x xs ih =>
    rw [List.anyM, List.anyM]
    refine (hp x (by simp)).bind fun v b _ huv _ _ => ?_
    cases b with
    | true => exact .pure (fun _ _ => rfl) fun _ _ _ => trivial
    | false => exact ih fun y hy => (hp y (by simp [hy])).onward huv

theorem allM {p : γ → InUniverse Bool} {q : γ → Ideal noClasses Bool} {xs : List γ}
    (hp : ∀ x ∈ xs, u.Decides C K (p x) (q x)) : u.Decides C K (xs.allM p) (xs.allM q) := by
  induction xs generalizing u with
  | nil => exact .pure (fun _ _ => rfl) fun _ _ _ => trivial
  | cons x xs ih =>
    rw [List.allM, List.allM]
    refine (hp x (by simp)).bind fun v b _ huv _ _ => ?_
    cases b with
    | true => exact ih fun y hy => (hp y (by simp [hy])).onward huv
    | false => exact .pure (fun _ _ => rfl) fun _ _ _ => trivial

/-- Entries that are found one after the other. -/
theorem mapM {f : γ → InUniverse Ty} {g : γ → Ideal noClasses Ty} {xs : List γ}
    (hf : ∀ x ∈ xs, u.Tracks C K (f x) (g x) Keeps) :
    u.Tracks C K (xs.mapM f) (xs.mapM g) fun v ts => ∀ t ∈ ts, v.Keeps t := by
  induction xs generalizing u with
  | nil => exact .pure (fun _ _ => rfl) fun _ _ _ => by simp
  | cons x xs ih =>
    rw [List.mapM_cons, List.mapM_cons]
    refine (hf x (by simp)).bind fun v t _ huv ht _ => ?_
    refine (ih fun y hy => (hf y (by simp [hy])).onward huv).bind fun w ts _ hvw hts _ => ?_
    refine .pure (fun _ _ => rfl) fun w' _ hww' s hs => ?_
    rcases List.mem_cons.1 hs with rfl | hs
    · exact (hvw.trans hww').keeps ht
    · exact hww'.keeps (hts s hs)

end Tracks

end Tracks

/-! ## The store -/

variable {C K : Prop}

theorem Coherent.insert (hu : u.Coherent) (hnew : u.lookup? t.key = none) (hparts : ∀ s ∈ t.parts, u.Keeps s)
    (horderly : t.isInter = false → t.Orderly)
    (hstanding : u.spent = false → ∀ ms, t = .inter ms → (∀ m ∈ ms, Lucid m) → Standing ms) :
    ({ u with table := u.table.insert t.key t } : Universe).Coherent ∧
      u.Onward { u with table := u.table.insert t.key t } := by
  have hcases {s : Ty} (hs : ({ u with table := u.table.insert t.key t } : Universe).Keeps s) : s = t ∨ u.Keeps s := by
    exact ((lookup?_insert hnew).1 hs).imp And.right id
  have hold {k : Text} {s : Ty} (hs : u.lookup? k = some s) :
      ({ u with table := u.table.insert t.key t } : Universe).lookup? k = some s :=
    (lookup?_insert hnew).2 (.inr hs)
  refine ⟨⟨fun hk => ?_, fun hs x hx => ?_, fun ha => hold (hu.atom ha), fun c hc s hs => hold (hu.shape c hc s hs),
    fun hs hi => ?_, fun hspent ms hs hlucid => ?_, fun hspent question entry hentry => ?_⟩, hold, id⟩
  · rcases (lookup?_insert hnew).1 hk with ⟨rfl, rfl⟩ | hk
    · rfl
    · exact hu.key_eq hk
  · rcases hcases hs with rfl | hs
    · exact hold (hparts x hx)
    · exact hold (hu.part hs x hx)
  · rcases hcases hs with rfl | hs
    · exact horderly hi
    · exact hu.orderly hs hi
  · rcases hcases hs with heq | hs
    · exact hstanding hspent ms heq.symm hlucid
    · exact hu.standing hspent hs hlucid
  · intro a b ha hb heq hca hcb
    exact hu.right hspent question entry hentry a b ha hb heq (fun s hs => hca s (hold hs)) fun s hs => hcb s (hold hs)

/-- Interning answers an entry with the key, and the type itself if it is one or nothing else has its key. -/
theorem tracks_intern (hparts : ∀ s ∈ t.parts, u.Keeps s) (horderly : t.isInter = false → t.Orderly)
    (hstanding : u.spent = false → ∀ ms, t = .inter ms → (∀ m ∈ ms, Lucid m) → Standing ms)
    (hsole : u.spent = false → C → Sole t ∨ u.Keeps t) :
    u.Tracks C K (TypeStore.intern t) (TypeStore.intern t) fun v s => v.Keeps s ∧ s.key = t.key := by
  intro v hv huv
  have hrun : (TypeStore.intern t : InUniverse Ty).run v = v.intern t := rfl
  rw [hrun, Universe.intern]
  cases hlookup : v.lookup? t.key with
  | some kept =>
    have hkey := hv.key_eq hlookup
    have hkept : v.Keeps kept := by rw [Keeps, hkey, hlookup]
    simp only [show v.table[t.key]? = some kept from hlookup]
    refine ⟨hv, .refl v, ⟨hkept, hkey⟩, fun hspent hC => ?_, fun _ => id⟩
    -- what was kept under the key is the type, or the answer is about another one
    rcases hsole (huv.unspent hspent) hC with hsole | ht
    · exact hsole kept hkey
    · exact hkept.eq_of_key_eq (huv.keeps ht) hkey
  | none =>
    simp only [show v.table[t.key]? = none from hlookup]
    obtain ⟨hw, hvw⟩ := hv.insert hlookup (fun s hs => huv.keeps (hparts s hs)) horderly
      fun hspent => hstanding (huv.unspent hspent)
    exact ⟨hw, hvw, ⟨(lookup?_insert hlookup).2 (.inl ⟨rfl, rfl⟩), trivial⟩, fun _ _ => rfl, fun _ => id⟩

/-- What the hierarchy is, only the universe knows. -/
theorem tracks_hierarchy (y : Ideal noClasses Hierarchy) :
    u.Tracks False K TypeStore.hierarchy y fun v h => h = v.classes :=
  fun v hv _ => ⟨hv, .refl v, rfl, fun _ => False.elim, fun _ => id⟩

theorem Coherent.withMemory (hu : u.Coherent) {memory : Memory} (hm : u.spent = false → memory.Each u.Fits) :
    ({ u with memory } : Universe).Coherent ∧ u.Onward { u with memory } :=
  ⟨⟨hu.key_eq, hu.part, hu.atom, hu.shape, hu.orderly, hu.standing, hm⟩, id, id⟩

/-- What is remembered of two lucid entries is right. -/
theorem tracks_answered? {a b : Ty} (ha : u.Keeps a) (hb : u.Keeps b) (y : Ideal noClasses (Option Bool)) :
    u.Tracks False K (TypeStore.answered? (a.key, b.key)) y fun v known =>
      v.spent = false → Lucid a ∧ Lucid b → ∀ answer ∈ known, answer = noClasses.subtype a b := by
  intro v hv huv
  by_cases hc : v.memory.capacity = 0
  · have hrun : (TypeStore.answered? (a.key, b.key) : InUniverse (Option Bool)).run v = (none, v) :=
      if_pos hc
    rw [hrun]
    exact ⟨hv, .refl v, by simp, fun _ => False.elim, fun _ => id⟩
  · have hrun : (TypeStore.answered? (a.key, b.key) : InUniverse (Option Bool)).run v =
        ((v.memory.answered? (a.key, b.key)).1,
          { v with memory := (v.memory.answered? (a.key, b.key)).2 }) := if_neg hc
    obtain ⟨hw, hvw⟩ := hv.withMemory fun hspent => ((hv.right hspent).answered? (a.key, b.key)).2
    rw [hrun]
    refine ⟨hw, hvw, fun hspent hlucid answer hanswer => ?_, fun _ => False.elim, fun _ => id⟩
    exact ((hv.right hspent).answered? (a.key, b.key)).1 answer hanswer a b hlucid.1 hlucid.2 rfl
      (huv.keeps ha).clear (huv.keeps hb).clear

/-- An answer about two entries may be remembered if it is right for lucid ones. -/
theorem tracks_remember {a b : Ty} (ha : u.Keeps a) (hb : u.Keeps b) {answer : Bool}
    (hright : u.spent = false → Lucid a ∧ Lucid b → answer = noClasses.subtype a b) (y : Ideal noClasses Unit) :
    u.Tracks False K (TypeStore.remember (a.key, b.key) answer) y fun _ _ => True := by
  intro v hv huv
  have hfits (hspent : v.spent = false) : v.Fits (a.key, b.key) answer := by
    intro x z hx hz heq hclear hclear'
    obtain ⟨hxa, hzb⟩ := Prod.mk.inj heq
    obtain rfl : a = x := hclear a (hxa ▸ huv.keeps ha)
    obtain rfl : b = z := hclear' b (hzb ▸ huv.keeps hb)
    exact hright (huv.unspent hspent) ⟨hx, hz⟩
  obtain ⟨hw, hvw⟩ := hv.withMemory fun hspent => (hv.right hspent).remember (hfits hspent)
  exact ⟨hw, hvw, trivial, fun _ => False.elim, fun _ => id⟩

/-- Nothing is claimed once the steps have run out. -/
theorem tracks_giveUp {α : Type} {a : α} {Q : Universe → α → Prop} (y : Ideal noClasses α)
    (hq : ∀ v : Universe, v.Coherent → u.Onward v → Q v a) :
    u.Tracks C False (do TypeStore.giveUp; return a) y Q := by
  intro v hv huv
  have hvw : v.Onward { v with spent := true } := ⟨id, fun _ => rfl⟩
  have hw : ({ v with spent := true } : Universe).Coherent :=
    ⟨hv.key_eq, hv.part, hv.atom, hv.shape, hv.orderly, by simp, by simp⟩
  exact ⟨hw, hvw, hq _ hw (huv.trans hvw), fun hspent => absurd (show true = false from hspent) (by simp), False.elim⟩

/-! ## Building -/

namespace Coherent

theorem disjoint_comm (hu : u.Coherent) (hs : u.Keeps s) (ht : u.Keeps t) :
    noClasses.disjoint s t = noClasses.disjoint t s :=
  disjoint_comm_of_ordered hu.part (fun h => hu.orderly h rfl) hs ht

theorem keeps_member (hu : u.Coherent) (ht : u.Keeps t) (hs : s ∈ t.members) : u.Keeps s :=
  of_mem_members ht (hu.part ht) hs

/-- The argument of a rest parameter is a part of the parameter's type. -/
theorem keeps_argType (hu : u.Coherent) {p : Param Ty} (hp : u.Keeps p.type) : u.Keeps (Rules.argType p) := by
  unfold Rules.argType
  split
  · rename_i elems rest _ heq
    rw [heq] at hp
    exact hu.part hp rest (List.mem_append_right _ (by simp))
  · exact hp

/-- **A lucid intersection that is kept is the intersection of its members.** -/
theorem intersect_members (hu : u.Coherent) (hspent : u.spent = false) {ms : List Ty} (ht : u.Keeps (.inter ms))
    (hlucid : Lucid (.inter ms)) : noClasses.intersect ms = .inter ms := by
  obtain ⟨hform, hsettled⟩ := hu.standing hspent ht fun m hm => hlucid.part hm
  exact Hierarchy.intersect_of_apart hform <|
    hsettled.oriented fun a ha b hb => hu.disjoint_comm (hu.part ht a ha) (hu.part ht b hb)

end Coherent

theorem tracks_atom (ht : t ∈ atoms) : u.Tracks C K (pure t) (pure t) Keeps :=
  .pure (fun _ _ => rfl) fun _ hv _ => hv.atom ht

theorem tracks_literal (l : Literal) : u.Tracks C K (TypeStore.literal l) (TypeStore.literal l) Keeps :=
  (tracks_intern (t := .literal l) (by simp [parts]) (fun _ => trivial) (by simp) fun _ _ => .inl (sole_literal l)).imp
    fun _ _ _ _ ht _ => ht.1

/-- Only shapes have the key of a shape. -/
theorem isObject_of_key_eq {tag : String} {props : List (Property Ty)} (hk : t.key = (Ty.object tag props).key) :
    t.isObject = true := by
  have hhead := head_eq_of_key_eq hk
  cases t with
  | object _ _ => rfl
  | literal l => cases l <;> simp [head] at hhead
  | _ => simp [head] at hhead

theorem tracks_object {tag : String} {props : List (Property Ty)} (hprops : ∀ p ∈ props, u.Keeps p.type)
    (hkept : u.spent = false → C → u.Keeps (.object tag (TypeStore.sortProps props))) :
    u.Tracks C K (TypeStore.object tag props) (TypeStore.object tag props)
      fun v t => v.Keeps t ∧ t.isObject = true := by
  refine (tracks_intern (t := .object tag (TypeStore.sortProps props)) (fun s hs => ?_)
    (fun _ => TypeStore.sortProps_increasing props) (by simp) fun hspent hC => .inr (hkept hspent hC)).imp
      fun _ _ _ _ ht _ => ⟨ht.1, isObject_of_key_eq ht.2⟩
  obtain ⟨p, hp, rfl⟩ := List.mem_map.1 hs
  exact hprops p (TypeStore.mem_of_mem_sortProps hp)

/-- A union of entries is an entry, and the right one if it is one already or nothing else has its key. -/
theorem tracks_union {ts : List Ty} (hts : ∀ t ∈ ts, u.Keeps t)
    (hsole : u.spent = false → C → Sole (noClasses.union ts) ∨ u.Keeps (noClasses.union ts)) :
    u.Tracks C K (TypeStore.union ts) (TypeStore.union ts) Keeps := by
  refine .of_coherent fun v hv huv => ?_
  have hform (ms : List Ty) (hu : noClasses.union ts = .union ms) : UnionForm ms := Hierarchy.union_orderly _ ts hu
  have hopen := alternativesAll_opened ts
  rw [Hierarchy.union_eq] at hform hsole
  rw [TypeStore.union, TypeStore.union]
  cases hflat : alternativesAll ts with
  | none => exact tracks_atom (by simp [atoms])
  | some flat =>
    rw [hflat] at hform hsole hopen
    -- what is left is an alternative of an argument, or `boolean` in the place of both literals
    have hmember (s) (hs : s ∈ simplified flat) : v.Keeps s := by
      rcases mem_simplified hs with hs | ⟨rfl, -⟩
      · obtain ⟨t, ht, halt⟩ := (hopen.2 s).1 hs
        exact halt.of_union_closed (fun _ hms m hm => hv.part hms m hm) (huv.keeps (hts t ht))
      · exact hv.atom (by simp [atoms])
    refine (tracks_literal _).bind fun v₁ _ _ h₁ _ _ => (tracks_literal _).bind fun v₂ _ hv₂ h₂ _ _ => ?_
    have hgrown := h₁.trans h₂
    show v₂.Tracks C K (TypeStore.unionOf (simplified flat)) (TypeStore.unionOf (simplified flat)) Keeps
    dsimp only at hform hsole
    generalize simplified flat = ms at hform hmember hsole
    rcases ms with _ | ⟨m, _ | ⟨m', ms⟩⟩
    · exact tracks_atom (by simp [atoms])
    · exact .pure (fun _ _ => rfl) fun w _ hvw => hvw.keeps (hgrown.keeps (hmember m (by simp)))
    · refine (tracks_intern (t := .union (sortByKey (m :: m' :: ms)))
        (fun s hs => hgrown.keeps (hmember s (mem_sortByKey.1 hs))) (fun _ => hform _ rfl) (by simp)
        fun hspent hC => ?_).imp fun _ _ _ _ ht _ => ht.1
      exact (hsole (huv.unspent (hgrown.unspent hspent)) hC).imp id fun h => (huv.trans hgrown).keeps h

end Universe
end FlowTyping
