import FlowTyping.Proofs.Relation.Canonical
import FlowTyping.Proofs.Store.Ideal
import FlowTyping.Proofs.Ty.Mirror
import FlowTyping.Proofs.Ty.Orderly

/-!
# Sound universes

A universe is a table of types that only grows, together with a memory of answers. This module says what
holds of it at all times, and what it means to compute in it.

* **`Universe.Sound h u`** — entries are kept under their own keys with all their parts, they have the
  form that the constructors give them, and what is remembered is right for the classes `h`.
* **`Universe.Stands u t t'`** — `t` is the tree that the universe keeps for the type `t'`.
* **`Universe.Yields h u x Q`** — in `u` and in every universe that comes of it, `x` keeps the universe
  sound and ends with a result of which `Q` holds. **`Yields.bind`** follows a computation step by step.
* **`Universe.Sound.intern`** — interning a tree whose parts stand for types.
* **`Universe.yields_object`**, **`Universe.yields_union`**, … — the constructors, run on trees that stand for types,
  answer the tree that stands for what they make of these types.
-/

namespace FlowTyping

/-! ## Remembered answers -/

namespace Memory

/-- Every remembered answer has a property. -/
def Each (P : Text × Text → Bool → Prop) (mem : Memory) : Prop :=
  ∀ question entry, mem.answers[question]? = some entry → P question entry.1

/-- Every answer is the right one for all types of its two keys. -/
def Right (h : Hierarchy) (mem : Memory) : Prop :=
  ∀ a b : Ty, a.Named → b.Named → ∀ entry, mem.answers[(a.key, b.key)]? = some entry →
    entry.1 = h.subtype a b

variable {h : Hierarchy} {mem : Memory} {P : Text × Text → Bool → Prop} {question : Text × Text} {answer : Bool}

namespace Each

theorem use (hm : mem.Each P) (hq : P question answer) : (mem.use question answer).Each P := by
  intro asked entry hentry
  simp only [Memory.use, Std.HashMap.getElem?_insert] at hentry
  split at hentry
  · rename_i heq
    obtain rfl := Option.some.inj hentry
    obtain rfl : question = asked := by simpa using heq
    exact hq
  · exact hm asked entry hentry

/-- A remembered answer has the property, and so have all answers after its use. -/
theorem answered? (hm : mem.Each P) (question : Text × Text) :
    (∀ answer ∈ (mem.answered? question).1, P question answer) ∧ (mem.answered? question).2.Each P := by
  rw [Memory.answered?]
  split
  · exact ⟨by simp, hm⟩
  · rename_i answer time hfind
    have hq : P question answer := hm question _ hfind
    refine ⟨fun answer' h' => ?_, hm.use hq⟩
    obtain rfl := Option.some.inj h'
    exact hq

theorem forgetOldest (hm : mem.Each P) : mem.forgetOldest.Each P := by
  rw [Memory.forgetOldest]
  split
  · intro asked entry hentry
    simp only [Std.HashMap.getElem?_erase] at hentry
    split at hentry
    · simp at hentry
    · exact hm asked entry hentry
  · exact hm

theorem remember (hm : mem.Each P) (hq : P question answer) : (mem.remember question answer).Each P := by
  rw [Memory.remember]
  split
  · exact hm
  · dsimp only
    split
    · exact hm.use hq
    · exact (hm.use hq).forgetOldest

theorem of_empty (capacity : Nat) : Each P { capacity } := by
  intro _ _ hentry
  simp at hentry

end Each

theorem right_iff_each : mem.Right h ↔ mem.Each fun question answer =>
    ∀ a b : Ty, a.Named → b.Named → question = (a.key, b.key) → answer = h.subtype a b := by
  refine ⟨fun hm question entry hentry a b ha hb heq => ?_, fun hm a b ha hb entry hentry => ?_⟩
  · exact hm a b ha hb entry (heq ▸ hentry)
  · exact hm _ entry hentry a b ha hb rfl

/-- A remembered answer is right, and so is the memory after its use. -/
theorem Right.answered? (hm : mem.Right h) {a b : Ty} (ha : a.Named) (hb : b.Named) :
    (∀ answer ∈ (mem.answered? (a.key, b.key)).1, answer = h.subtype a b) ∧
      (mem.answered? (a.key, b.key)).2.Right h := by
  obtain ⟨hanswer, hafter⟩ := (right_iff_each.1 hm).answered? (a.key, b.key)
  exact ⟨fun answer h' => hanswer answer h' a b ha hb rfl, right_iff_each.2 hafter⟩

theorem Right.remember (hm : mem.Right h)
    (hq : ∀ a b : Ty, a.Named → b.Named → question = (a.key, b.key) → answer = h.subtype a b) :
    (mem.remember question answer).Right h :=
  right_iff_each.2 ((right_iff_each.1 hm).remember hq)

theorem right_of_empty (capacity : Nat) : Right h { capacity } := right_iff_each.2 (.of_empty capacity)

end Memory

/-! ## Tables -/

namespace Ty

/-- No two of the members combine, for the given classes. -/
def SettledIn (h : Hierarchy) (ms : List Ty) : Prop :=
  ms.Pairwise fun a b => (Rules.combine h.answers a b).run = .apart ∨
    (Rules.combine h.answers b a).run = .apart

theorem SettledIn.apart {h : Hierarchy} {ms : List Ty} (hs : SettledIn h ms) : ms.Pairwise Apart :=
  hs.imp fun hab => ⟨h, hab⟩

end Ty

namespace Universe

open Ty

/-- The tree is an entry of the table, under its own key. -/
def Keeps (u : Universe) (t : Ty) : Prop := u.lookup? t.key = some t

/-- A universe whose entries are what the constructors make, and whose memory is right. -/
structure Sound (h : Hierarchy) (u : Universe) : Prop where
  classes_eq : u.classes = h
  key_eq : ∀ {k : Text} {t : Ty}, u.lookup? k = some t → t.key = k
  part : ∀ {t : Ty}, u.Keeps t → ∀ s ∈ t.parts, u.Keeps s
  ownNamed : ∀ {t : Ty}, u.Keeps t → t.OwnNamed
  orderly : ∀ {t : Ty}, u.Keeps t → t.Orderly
  apart : ∀ {ms : List Ty}, u.Keeps (.inter ms) → ms.Pairwise Apart
  atom : ∀ {t : Ty}, t ∈ atoms → u.Keeps t
  shape : ∀ c ∈ h.classes, ∀ t ∈ c.shape, u.Keeps t
  right : u.memory.Right h
  unspent : u.spent = false

/-- What a computation does to the table: entries stay, and of new intersections no two members
combine. -/
structure Grows (h : Hierarchy) (u v : Universe) : Prop where
  lookup? : ∀ {k : Text} {t : Ty}, u.lookup? k = some t → v.lookup? k = some t
  settled : ∀ {ms : List Ty}, v.Keeps (.inter ms) → u.Keeps (.inter ms) ∨ SettledIn h ms

namespace Grows

variable {h : Hierarchy} {u v w : Universe}

theorem refl (h : Hierarchy) (u : Universe) : u.Grows h u := ⟨id, .inl⟩

theorem trans (huv : u.Grows h v) (hvw : v.Grows h w) : u.Grows h w := by
  refine ⟨fun hk => hvw.lookup? (huv.lookup? hk), fun hk => ?_⟩
  rcases hvw.settled hk with hk | hs
  · exact huv.settled hk
  · exact .inr hs

theorem keeps (huv : u.Grows h v) {t : Ty} (ht : u.Keeps t) : v.Keeps t := huv.lookup? ht

end Grows

/-! ## Trees that stand for types -/

/-- The tree that the universe keeps for a type. -/
structure Stands (u : Universe) (t t' : Ty) : Prop where
  lookup? : u.lookup? t'.key = some t
  named : Named t'

variable {h : Hierarchy} {u v : Universe} {t t' : Ty}

theorem Stands.grows (hs : u.Stands t t') (huv : u.Grows h v) : v.Stands t t' :=
  ⟨huv.lookup? hs.lookup?, hs.named⟩

theorem Stands.of_key_eq (hs : u.Stands t t') {s : Ty} (hnamed : Named s) (hk : t'.key = s.key) :
    u.Stands t s :=
  ⟨hk ▸ hs.lookup?, hnamed⟩

theorem Stands.prop_grows {p q : Property Ty} (hp : p.Mirrors u.Stands q) (huv : u.Grows h v) :
    p.Mirrors v.Stands q :=
  ⟨hp.name, hp.type.grows huv, hp.optional, hp.readonly⟩

theorem Stands.option_grows {o o' : Option Ty} (ho : Option.Rel u.Stands o o')
    (huv : u.Grows h v) : Option.Rel v.Stands o o' :=
  optionRel_imp ho fun _ _ hs => hs.grows huv

namespace Sound

theorem keeps_of_stands (hu : u.Sound h) (hs : u.Stands t t') : u.Keeps t := by
  rw [Keeps, hu.key_eq hs.lookup?]
  exact hs.lookup?

theorem named (hu : u.Sound h) (ht : u.Keeps t) : Named t := by
  induction t using parts_induction with
  | step t ih => exact .intro (hu.ownNamed ht) fun s hs => ih s hs (hu.part ht s hs)

/-- An entry stands for itself. -/
theorem stands (hu : u.Sound h) (ht : u.Keeps t) : u.Stands t t := ⟨ht, hu.named ht⟩

/-- An entry is canonical. -/
theorem canonical (hu : u.Sound h) (ht : u.Keeps t) : Canonical t := by
  induction t using parts_induction with
  | step t ih =>
    refine .intro ?_ fun s hs => ih s hs (hu.part ht s hs)
    have ho := hu.orderly ht
    cases t with
    | union ms =>
      have ho : UnionForm ms := ho
      exact ⟨ho.two_le, keys_nodup_of_increasing ho.increasing, ho.member⟩
    | inter ms => exact ⟨ho.two_le, ho.member, hu.apart ht⟩
    | _ => trivial

/-- Trees and the types that they stand for have one outline, part by part. -/
theorem mirroring (hu : u.Sound h) : Mirroring u.Stands where
  key_eq hs := hu.key_eq hs.lookup?
  atom ht := hu.stands (hu.atom ht)
  mirrors {t t'} hs := by
    have ht := hu.keeps_of_stands hs
    refine (mirrors_of_key_eq (hu.named ht) hs.named (hu.key_eq hs.lookup?)).imp ?_
    intro x hx y hy hxy
    refine ⟨?_, hs.named.part hy⟩
    rw [← show x.key = y.key from hxy]
    exact hu.part ht x hx

end Sound

/-! ## Computations -/

variable {α β : Type} {x : InUniverse α} {Q : Universe → α → Prop}

/-- In this universe and in every one that comes of it, the computation keeps the universe sound and
ends with such a result. -/
def Yields (h : Hierarchy) (u : Universe) (x : InUniverse α) (Q : Universe → α → Prop) : Prop :=
  ∀ v : Universe, v.Sound h → u.Grows h v →
    (x.run v).2.Sound h ∧ v.Grows h (x.run v).2 ∧ Q (x.run v).2 (x.run v).1

namespace Yields

theorem grows (hx : u.Yields h x Q) (huv : u.Grows h v) : v.Yields h x Q :=
  fun w hw hvw => hx w hw (huv.trans hvw)

theorem of_sound (hx : ∀ v : Universe, v.Sound h → u.Grows h v → v.Yields h x Q) :
    u.Yields h x Q :=
  fun v hv huv => hx v hv huv v hv (.refl h v)

theorem pure {a : α} (hq : ∀ v : Universe, v.Sound h → u.Grows h v → Q v a) :
    u.Yields h (pure a) Q :=
  fun v hv huv => ⟨hv, .refl h v, hq v hv huv⟩

theorem bind {f : α → InUniverse β} {Q' : Universe → β → Prop} (hx : u.Yields h x Q)
    (hf : ∀ (v : Universe) (a : α), v.Sound h → u.Grows h v → Q v a → v.Yields h (f a) Q') :
    u.Yields h (x >>= f) Q' := by
  intro v hv huv
  obtain ⟨hw, hvw, hq⟩ := hx v hv huv
  obtain ⟨hw', hww', hq'⟩ := hf _ _ hw (huv.trans hvw) hq _ hw (.refl h _)
  exact ⟨hw', hvw.trans hww', hq'⟩

theorem imp {Q' : Universe → α → Prop} (hx : u.Yields h x Q)
    (hq : ∀ (v : Universe) (a : α), v.Sound h → u.Grows h v → Q v a → Q' v a) : u.Yields h x Q' := by
  intro v hv huv
  obtain ⟨hw, hvw, hqa⟩ := hx v hv huv
  exact ⟨hw, hvw, hq _ _ hw (huv.trans hvw) hqa⟩

/-- A question of which something is known does not run out of steps. -/
theorem bounded {a : α} (hx : u.Yields h x Q) : u.Yields h (TypeStore.bounded a x) Q := by
  intro v hv huv
  obtain ⟨hw, hvw, hq⟩ := hx v hv huv
  rw [run_bounded_of_run (Prod.mk.eta (p := x.run v)).symm hv.unspent hw.unspent]
  exact ⟨hw, hvw, hq⟩

/-- A loop that collects results, each of which stays as good as it was. -/
theorem mapM {γ : Type} {R : α → β → Prop} {P : Universe → β → γ → Prop} {f : α → InUniverse γ}
    {xs : List α} {ys : List β}
    (hP : ∀ {v w : Universe} {y : β} {z : γ}, v.Grows h w → P v y z → P w y z)
    (hxs : List.Forall₂ R xs ys)
    (hf : ∀ x ∈ xs, ∀ y ∈ ys, R x y → u.Yields h (f x) fun v z => P v y z) :
    u.Yields h (xs.mapM f) fun v zs => List.Forall₂ (P v) ys zs := by
  induction hxs with
  | nil => exact .pure fun _ _ _ => .nil
  | @cons x y xs ys hxy _ ih =>
    rw [List.mapM_cons]
    have hih := ih fun x hx y hy => hf x (by simp [hx]) y (by simp [hy])
    refine (hf x (by simp) y (by simp) hxy).bind fun v z _ huv hz => ?_
    refine (hih.grows huv).bind fun w zs _ hvw hzs => .pure fun w' _ hww' => ?_
    exact .cons (hP (hvw.trans hww') hz) (hzs.imp fun _ _ hz => hP hww' hz)

/-- A loop that carries something along, which stays as good as it was. -/
theorem foldlM {P : Universe → β → Prop} {f : β → α → InUniverse β} {xs : List α} {b : β}
    (hP : ∀ {v w : Universe} {b : β}, v.Grows h w → P v b → P w b) (hb : P u b)
    (hf : ∀ x ∈ xs, ∀ (v : Universe) (b : β), v.Sound h → u.Grows h v → P v b → v.Yields h (f b x) P) :
    u.Yields h (xs.foldlM f b) P := by
  induction xs generalizing u b with
  | nil => exact .pure fun _ _ huv => hP huv hb
  | cons x xs ih =>
    rw [List.foldlM_cons]
    refine .of_sound fun v hv huv => (hf x (by simp) v b hv huv (hP huv hb)).bind fun w b _ hvw hb => ?_
    exact ih hb fun y hy w' b hw' hww' => hf y (by simp [hy]) w' b hw' ((huv.trans hvw).trans hww')

/-- A loop that drops elements. -/
theorem filterM {p : α → InUniverse Bool} {xs : List α}
    (hp : ∀ x ∈ xs, u.Yields h (p x) fun _ _ => True) :
    u.Yields h (xs.filterM p) fun _ ys => ys ⊆ xs := by
  have hloop (xs acc : List α) (hp : ∀ x ∈ xs, u.Yields h (p x) fun _ _ => True) {v : Universe}
      (huv : u.Grows h v) : v.Yields h (xs.filterAuxM p acc) fun _ ys => ys ⊆ acc ++ xs := by
    induction xs generalizing acc v with
    | nil => exact .pure fun _ _ _ => by simp
    | cons x xs ih =>
      rw [List.filterAuxM]
      refine ((hp x (by simp)).grows huv).bind fun w keep _ hvw _ => ?_
      refine (ih _ (fun y hy => hp y (by simp [hy])) (huv.trans hvw)).imp fun _ ys _ _ hys y hy => ?_
      have hmem := hys hy
      cases keep <;> simp only [cond, List.mem_append, List.mem_cons] at hmem ⊢ <;> tauto
  rw [List.filterM]
  refine (hloop xs [] hp (.refl h u)).bind fun v ys _ _ hys => .pure fun _ _ _ y hy => ?_
  simpa using hys (List.mem_reverse.1 hy)

end Yields

/-- The computation ends with this answer. -/
def Says (h : Hierarchy) (u : Universe) (x : InUniverse α) (a : α) : Prop :=
  u.Yields h x fun _ b => b = a

namespace Says

variable {a : α}

theorem pure (h : Hierarchy) (u : Universe) (a : α) : u.Says h (Pure.pure a) a :=
  Yields.pure fun _ _ _ => rfl

theorem bind {f : α → InUniverse β} {Q' : Universe → β → Prop} (hx : u.Says h x a)
    (hf : u.Yields h (f a) Q') : u.Yields h (x >>= f) Q' :=
  Yields.bind hx fun _ _ _ huv heq => heq ▸ hf.grows huv

/-- A test that comes first decides between two computations. -/
theorem ite {c : InUniverse Bool} {b : Bool} {x y : InUniverse α} (hc : u.Says h c b)
    (hx : b = true → u.Yields h x Q) (hy : b = false → u.Yields h y Q) :
    u.Yields h (c >>= fun b => if b = true then x else y) Q := by
  refine hc.bind ?_
  cases b with
  | true => exact hx rfl
  | false => exact hy rfl

theorem cond {c : InUniverse Bool} {b : Bool} {x y : InUniverse α} {p q : α} (hc : u.Says h c b)
    (hx : u.Says h x p) (hy : u.Says h y q) :
    u.Says h (c >>= fun b => if b = true then x else y) (if b = true then p else q) :=
  hc.ite (fun hyes => by rw [if_pos hyes]; exact hx) fun hno => by rw [hno]; exact hy

/-- A computation has one answer. -/
theorem unique {b : α} (hu : u.Sound h) (ha : u.Says h x a) (hb : u.Says h x b) : a = b :=
  (ha u hu (.refl h u)).2.2.symm.trans (hb u hu (.refl h u)).2.2

theorem anyM {R : α → β → Prop} {p : α → InUniverse Bool} {q : β → Bool} {xs : List α}
    {ys : List β} (hxs : List.Forall₂ R xs ys)
    (hp : ∀ x ∈ xs, ∀ y ∈ ys, R x y → u.Says h (p x) (q y)) :
    u.Says h (xs.anyM p) (ys.any q) := by
  induction hxs with
  | nil => exact .pure h u false
  | @cons x y xs ys hxy _ ih =>
    have hfirst := hp x (by simp) y (by simp) hxy
    rw [List.anyM, List.any_cons]
    refine hfirst.bind ?_
    cases q y with
    | true => exact Says.pure h u true
    | false => exact ih fun x hx y hy => hp x (by simp [hx]) y (by simp [hy])

theorem allM {R : α → β → Prop} {p : α → InUniverse Bool} {q : β → Bool} {xs : List α}
    {ys : List β} (hxs : List.Forall₂ R xs ys)
    (hp : ∀ x ∈ xs, ∀ y ∈ ys, R x y → u.Says h (p x) (q y)) :
    u.Says h (xs.allM p) (ys.all q) := by
  induction hxs with
  | nil => exact .pure h u true
  | @cons x y xs ys hxy _ ih =>
    have hfirst := hp x (by simp) y (by simp) hxy
    rw [List.allM, List.all_cons]
    refine hfirst.bind ?_
    cases q y with
    | true => exact ih fun x hx y hy => hp x (by simp [hx]) y (by simp [hy])
    | false => exact Says.pure h u false

end Says

/-! ## The operations of the store -/

theorem says_hierarchy (h : Hierarchy) (u : Universe) :
    u.Says h (TypeStore.hierarchy : InUniverse Hierarchy) h :=
  fun v hv _ => ⟨hv, .refl h v, hv.classes_eq⟩

theorem lookup?_insert {t s : Ty} {k : Text} (hnew : u.lookup? t.key = none) :
    ({ u with table := u.table.insert t.key t } : Universe).lookup? k = some s ↔
      k = t.key ∧ s = t ∨ u.lookup? k = some s := by
  show (u.table.insert t.key t)[k]? = some s ↔ _
  rw [Std.HashMap.getElem?_insert]
  by_cases hk : t.key = k
  · subst hk
    have hnone : u.lookup? t.key ≠ some s := by simp [hnew]
    simp [hnone, eq_comm]
  · simp [hk, Ne.symm hk, Universe.lookup?]

/-- A tree that is no entry yet can be added when its parts are there. -/
theorem Sound.insert (hu : u.Sound h) (hnew : u.lookup? t.key = none)
    (hparts : ∀ s ∈ t.parts, u.Keeps s) (hnamed : t.OwnNamed) (horderly : t.Orderly)
    (hsettled : ∀ ms, t = .inter ms → SettledIn h ms) :
    ({ u with table := u.table.insert t.key t } : Universe).Sound h ∧
      u.Grows h { u with table := u.table.insert t.key t } := by
  have hold {s : Ty} (hs : u.Keeps s) :
      ({ u with table := u.table.insert t.key t } : Universe).Keeps s :=
    (lookup?_insert hnew).2 (.inr hs)
  -- whatever is asked of all entries is asked of the new one and of the old ones
  have hcases {s : Ty}
      (hs : ({ u with table := u.table.insert t.key t } : Universe).Keeps s) :
      s = t ∨ u.Keeps s := ((lookup?_insert hnew).1 hs).imp And.right id
  refine ⟨⟨hu.classes_eq, ?_, ?_, ?_, ?_, ?_, fun ha => hold (hu.atom ha),
    fun c hc s hs => hold (hu.shape c hc s hs), hu.right, hu.unspent⟩, ?_, ?_⟩
  · intro k s hs
    rcases (lookup?_insert hnew).1 hs with ⟨rfl, rfl⟩ | hs
    · rfl
    · exact hu.key_eq hs
  · intro s hs p hp
    rcases hcases hs with rfl | hs
    · exact hold (hparts p hp)
    · exact hold (hu.part hs p hp)
  · intro s hs
    rcases hcases hs with rfl | hs
    · exact hnamed
    · exact hu.ownNamed hs
  · intro s hs
    rcases hcases hs with rfl | hs
    · exact horderly
    · exact hu.orderly hs
  · intro ms hs
    rcases hcases hs with heq | hs
    · exact (hsettled ms heq.symm).apart
    · exact hu.apart hs
  · exact fun hs => (lookup?_insert hnew).2 (.inr hs)
  · intro ms hs
    rcases hcases hs with heq | hs
    · exact .inr (hsettled ms heq.symm)
    · exact .inl hs

/-- Interning answers the tree that stands for the type, whether it was kept before or is added. -/
theorem Yields.intern (hm : Mirrors u.Stands t t') (hnamed : t.OwnNamed)
    (horderly : t.Orderly) (hsettled : ∀ ms, t = .inter ms → SettledIn h ms) :
    u.Yields h (TypeStore.intern t) fun v r => v.Stands r t' := by
  intro v hv huv
  have hm : Mirrors v.Stands t t' := hm.imp fun _ _ _ _ hs => hs.grows huv
  have hkey : t.key = t'.key := hm.key_eq fun _ _ hs => hv.key_eq hs.lookup?
  have hnamed' : Named t' := by
    refine .intro (hm.ownNamed hnamed) fun s' hs' => ?_
    obtain ⟨s, -, hs⟩ := exists_mem_left hm.parts hs'
    exact hs.named
  show (v.intern t).2.Sound h ∧ v.Grows h (v.intern t).2 ∧ (v.intern t).2.Stands (v.intern t).1 t'
  rw [Universe.intern]
  cases hlookup : v.lookup? t.key with
  | some kept =>
    simp only [show v.table[t.key]? = some kept from hlookup]
    exact ⟨hv, .refl h v, hkey ▸ hlookup, hnamed'⟩
  | none =>
    simp only [show v.table[t.key]? = none from hlookup]
    have hparts : ∀ s ∈ t.parts, v.Keeps s := by
      intro s hs
      obtain ⟨s', -, hs'⟩ := exists_mem_right hm.parts hs
      exact hv.keeps_of_stands hs'
    obtain ⟨hsound, hgrows⟩ := hv.insert hlookup hparts hnamed horderly hsettled
    refine ⟨hsound, hgrows, ?_, hnamed'⟩
    rw [← hkey]
    exact (lookup?_insert hlookup).2 (.inl ⟨rfl, rfl⟩)

/-! ### Memory -/

/-- The memory is no part of the table. -/
theorem Sound.withMemory (hu : u.Sound h) {memory : Memory} (hm : memory.Right h) :
    ({ u with memory } : Universe).Sound h ∧ u.Grows h { u with memory } :=
  ⟨⟨hu.classes_eq, hu.key_eq, hu.part, hu.ownNamed, hu.orderly, hu.apart, hu.atom, hu.shape, hm,
    hu.unspent⟩, id, .inl⟩

/-- What is remembered of a question is its answer. -/
theorem yields_answered? {a b : Ty} (ha : a.Named) (hb : b.Named) :
    u.Yields h (TypeStore.answered? (a.key, b.key) : InUniverse (Option Bool))
      fun _ known => ∀ answer ∈ known, answer = h.subtype a b := by
  intro v hv _
  by_cases hc : v.memory.capacity = 0
  · have hrun : (TypeStore.answered? (a.key, b.key) : InUniverse (Option Bool)).run v = (none, v) :=
      if_pos hc
    rw [hrun]
    exact ⟨hv, .refl h v, by simp⟩
  · have hrun : (TypeStore.answered? (a.key, b.key) : InUniverse (Option Bool)).run v =
        ((v.memory.answered? (a.key, b.key)).1,
          { v with memory := (v.memory.answered? (a.key, b.key)).2 }) := if_neg hc
    obtain ⟨hanswer, hright⟩ := hv.right.answered? ha hb
    obtain ⟨hsound, hgrows⟩ := hv.withMemory hright
    rw [hrun]
    exact ⟨hsound, hgrows, hanswer⟩

theorem yields_remember {question : Text × Text} {answer : Bool}
    (hq : ∀ a b : Ty, a.Named → b.Named → question = (a.key, b.key) → answer = h.subtype a b) :
    u.Yields h (TypeStore.remember question answer : InUniverse Unit) fun _ _ => True := by
  intro v hv _
  obtain ⟨hsound, hgrows⟩ := hv.withMemory (hv.right.remember hq)
  exact ⟨hsound, hgrows, trivial⟩

end Universe
end FlowTyping

/-! ## Building -/

namespace FlowTyping.Universe

open Ty

variable {h : Hierarchy} {u : Universe} {s t : Ty}

theorem stands_atom {v : Universe} (hv : v.Sound h) (ht : t ∈ atoms) : v.Stands t t :=
  hv.stands (hv.atom ht)

theorem yields_self (hs : u.Stands s t) : u.Yields h (pure s) fun v r => v.Stands r t :=
  .pure fun _ _ huv => hs.grows huv

theorem yields_atom (ht : t ∈ atoms) : u.Yields h (pure t) fun v r => v.Stands r t :=
  .pure fun _ hv _ => stands_atom hv ht

theorem yields_literal (l : Literal) :
    u.Yields h (TypeStore.literal l) fun v r => v.Stands r (.literal l) := by
  refine .intern ?_ trivial trivial (by simp)
  cases l with
  | text value => exact .text rfl
  | number value => exact .numeral rfl
  | bool value => exact .truth value

theorem yields_object {tag : String} {ps qs : List (Property Ty)} (htag : Text.IsWord tag)
    (hnames : ∀ p ∈ ps, p.name.IsWord) (hps : List.Forall₂ (Property.Mirrors u.Stands) ps qs) :
    u.Yields h (TypeStore.object tag ps) fun v r =>
      v.Stands r (.object tag (TypeStore.sortProps qs)) :=
  .intern (.object tag (sortProps_rel hps))
    ⟨htag, fun p hp => hnames p (TypeStore.mem_of_mem_sortProps hp)⟩
    (TypeStore.sortProps_increasing ps) (by simp)

theorem yields_tuple {es fs : List (Elem Ty)} {r s : Option Ty}
    (horder : es.Pairwise fun e f => e.optional = true → f.optional = true)
    (hes : List.Forall₂ (Elem.Mirrors u.Stands) es fs) (hr : Option.Rel u.Stands r s) :
    u.Yields h (TypeStore.tuple es r) fun v t => v.Stands t (.tuple fs s) :=
  .intern (.tuple hes hr) trivial horder (by simp)

theorem yields_function {ps qs : List (Param Ty)} {r s : Ty}
    (hps : List.Forall₂ (Param.Mirrors u.Stands) ps qs) (hr : u.Stands r s) :
    u.Yields h (TypeStore.function ps r) fun v t => v.Stands t (.function qs s) :=
  .intern (.function hps hr) trivial trivial (by simp)

theorem yields_typeVar {name : String} {b c : Option Ty} (hname : Text.IsWord name)
    (hb : Option.Rel u.Stands b c) :
    u.Yields h (TypeStore.typeVar name b) fun v t => v.Stands t (.var name c) :=
  .intern (.var name hb) hname trivial (by simp)

/-! ## Unions -/

theorem yields_unionOf {ms ns : List Ty} (hms : List.Forall₂ u.Stands ms ns)
    (hform : 2 ≤ ms.length → UnionForm (sortByKey ms)) :
    u.Yields h (TypeStore.unionOf ms) fun v r =>
      v.Stands r (TypeStore.unionOf ns : Ideal h Ty).run := by
  refine .of_sound fun v hv huv => ?_
  have hms := hms.imp fun _ _ hs => Stands.grows hs huv
  have hsorted := hv.mirroring.sortByKey_rel hms
  cases hms with
  | nil => exact yields_atom (by simp [atoms])
  | cons hfirst hrest =>
    cases hrest with
    | nil => exact yields_self hfirst
    | cons _ _ => exact .intern (.union hsorted) trivial (hform (by simp)) (by simp)

/-- Unions of types are those of the trees that stand for them. -/
theorem yields_union {ts us : List Ty} (hts : List.Forall₂ u.Stands ts us) :
    u.Yields h (TypeStore.union ts) fun v r => v.Stands r (h.union us) := by
  refine .of_sound fun v hv huv => ?_
  have hts := hts.imp fun _ _ hs => Stands.grows hs huv
  have hflat := hv.mirroring.alternativesAll_rel hts
  have hform (ms : List Ty) (hu : h.union ts = .union ms) : UnionForm ms := h.union_orderly ts hu
  rw [Hierarchy.union_eq] at hform ⊢
  rw [TypeStore.union]
  generalize alternativesAll ts = opened, alternativesAll us = opened' at hflat hform
  cases hflat with
  | none => exact yields_atom (by simp [atoms])
  | @some flat flat' hflat =>
    refine (yields_literal _).bind fun v₁ _ _ h₁ _ => (yields_literal _).bind fun v₂ _ hv₂ h₂ _ => ?_
    have hflat := hflat.imp fun _ _ hs => (hs.grows h₁).grows h₂
    refine yields_unionOf (hv₂.mirroring.simplified_rel hflat) fun hlen => hform _ ?_
    have hlen : 2 ≤ (simplified flat).length := hlen
    rcases Hierarchy.unionOf_cases h (simplified flat) with ⟨hnil, -⟩ | ⟨m, hone, -⟩ | ⟨-, hrun⟩
    · simp [hnil] at hlen
    · simp [hone] at hlen
    · exact hrun

end FlowTyping.Universe
