import FlowTyping.Proofs.Relation.Bounds
import FlowTyping.Proofs.Store.Sound

/-!
# Computations that may stall

Whether a question about types is ever answered cannot be seen in a universe, where every computation has a
result. So the operations are run in a second store here: it keeps the same trees and remembers the same
answers, but a computation in it may stall, and then nothing after it is done. With a call that stalls in the
place of every call nested too deeply, a question has an answer only if no such call is made.

* **`Stalling`** — the store.
* **`Universe.WellNamed`** — all names in the types that a universe keeps are words. Interning then changes
  nothing that is measured: a named type and the tree that is kept for it are equally deep.
* **`Ty.Confined n d`** — named, shallow for `n` and at most `d` deep.
* **`Ends x y Q`** — in every such universe `x` does not stall, it does what `y` does, and `Q` holds of the
  result. **`Ends.bind`** follows two computations step by step.
-/

namespace FlowTyping

/-- Computations in a universe that may stall. -/
abbrev Stalling := OptionT InUniverse

instance : TypeStore Stalling where
  intern t := OptionT.lift (TypeStore.intern t)
  lookup? key := OptionT.lift (TypeStore.lookup? key)
  hierarchy := OptionT.lift TypeStore.hierarchy
  answered? question := OptionT.lift (TypeStore.answered? question)
  remember question answer := OptionT.lift (TypeStore.remember question answer)
  giveUp := failure
  bounded _ question := question

/-! ## Named types within bounds -/

namespace Ty

/-- Named, and shallow for `n`. -/
structure Slender (n : Nat) (t : Ty) : Prop where
  named : t.Named
  shallow : t.Shallow n

/-- Named, shallow for `n` and at most `d` deep. -/
structure Confined (n d : Nat) (t : Ty) : Prop extends Slender n t where
  depth_le : t.depth ≤ d

/-- Within the bounds, and neither a union nor an intersection. -/
structure Lone (n d : Nat) (t : Ty) : Prop extends Confined n d t where
  isUnion : t.isUnion = false
  isInter : t.isInter = false

variable {n d e : Nat} {s t : Ty}

namespace Slender

theorem part (ht : t.Slender n) (hs : s ∈ t.parts) : s.Slender n := ⟨ht.named.part hs, ht.shallow.part hs⟩

theorem member (ht : t.Slender n) (hs : s ∈ t.members) : s.Slender n := of_mem_members ht (fun _ => ht.part) hs

theorem confined (ht : t.Slender n) : t.Confined n t.depth := ⟨ht, Nat.le_refl _⟩

end Slender

namespace Confined

theorem bounded (ht : t.Confined n d) : t.Bounded n d := ⟨ht.shallow, ht.depth_le⟩

theorem of_bounded (hnamed : t.Named) (ht : t.Bounded n d) : t.Confined n d :=
  ⟨⟨hnamed, ht.shallow⟩, ht.depth_le⟩

theorem mono (hde : d ≤ e) (ht : t.Confined n d) : t.Confined n e :=
  ⟨ht.toSlender, Nat.le_trans ht.depth_le hde⟩

theorem part (ht : t.Confined n d) (hs : s ∈ t.parts) : s.Confined n (d - t.layer) :=
  .of_bounded (ht.named.part hs) (ht.bounded.part hs)

theorem of_atom (ht : t ∈ atoms) : t.Confined n d := by
  have hnamed := (Mirroring.sameKey.atom ht).2.1
  simp only [atoms, List.mem_cons, List.not_mem_nil, or_false] at ht
  rcases ht with rfl | rfl | rfl | rfl | rfl | rfl | rfl <;>
    exact .of_bounded hnamed (.of_closed rfl (Nat.zero_le d) (by simp [parts]))

theorem literal (l : Literal) : (Ty.literal l).Confined n d :=
  .of_bounded (.intro trivial (by simp [parts])) (.of_closed rfl (Nat.zero_le d) (by simp [parts]))

/-- Named types with one key are within the same bounds. -/
theorem of_key_eq (ht : t.Confined n d) (hs : s.Named) (hk : s.key = t.key) : s.Confined n d := by
  have hsame : t.key = s.key ∧ t.Named ∧ s.Named := ⟨hk.symm, ht.named, hs⟩
  refine ⟨⟨hs, Mirroring.sameKey.shallow hsame ht.shallow⟩, ?_⟩
  exact Nat.le_trans (Nat.le_of_eq (Mirroring.sameKey.depth_eq hsame).symm) ht.depth_le

end Confined

namespace Lone

theorem bounds (ht : t.Lone n d) : t.Bounded n d ∧ t.isUnion = false ∧ t.isInter = false :=
  ⟨ht.bounded, ht.isUnion, ht.isInter⟩

theorem of_key_eq (ht : t.Lone n d) (hs : s.Named) (hk : s.key = t.key) : s.Lone n d := by
  have hsame : t.key = s.key ∧ t.Named ∧ s.Named := ⟨hk.symm, ht.named, hs⟩
  refine ⟨ht.toConfined.of_key_eq hs hk, ?_, ?_⟩
  · rw [← Mirroring.sameKey.isUnion_eq hsame, ht.isUnion]
  · rw [← Mirroring.sameKey.isInter_eq hsame, ht.isInter]

/-- A shape with named properties has room for one layer more than they have. -/
theorem object {tag : String} {props : List (Property Ty)} (hd : 1 ≤ d) (htag : Text.IsWord tag)
    (hprops : ∀ p ∈ props, p.name.IsWord ∧ p.type.Confined n (d - 1)) : (Ty.object tag props).Lone n d := by
  have hparts (s) (hs : s ∈ (Ty.object tag props).parts) : s.Confined n (d - 1) := by
    obtain ⟨p, hp, rfl⟩ := List.mem_map.1 hs
    exact (hprops p hp).2
  have hnamed : (Ty.object tag props).Named :=
    .intro ⟨htag, fun p hp => (hprops p hp).1⟩ fun s hs => (hparts s hs).named
  exact ⟨.of_bounded hnamed (.of_closed rfl hd fun s hs => (hparts s hs).bounded), rfl, rfl⟩

end Lone

theorem Confined.inter {ms : List Ty} (hms : ∀ m ∈ ms, m.Lone n d) : (Ty.inter ms).Confined n d :=
  .of_bounded (.intro trivial fun m hm => (hms m hm).named) (.inter fun m hm => (hms m hm).bounds)

end Ty

/-- A union is within the bounds of its arguments. -/
theorem Hierarchy.union_confined {h : Hierarchy} {n d : Nat} {ts : List Ty} (hts : ∀ t ∈ ts, t.Confined n d) :
    (h.union ts).Confined n d := by
  refine .of_bounded ?_ (union_bounded fun t ht => (hts t ht).bounded)
  have hatom (t : Ty) (ht : t ∈ Ty.atoms) : t.Named := (Ty.Confined.of_atom (n := n) (d := d) ht).named
  refine union_forall (hatom _ (by simp [Ty.atoms])) (hatom _ (by simp [Ty.atoms])) ?_ ?_
    fun t ht => (hts t ht).named
  · exact fun ms hms m hm => hms.part hm
  · exact fun ms _ _ hms => .intro trivial fun m hm => (hms m hm).1

/-! ## Universes of named types -/

namespace Universe

variable {h : Hierarchy} {u : Universe} {t : Ty}

/-- Types are kept under their own keys, and all names in them are words. -/
def WellNamed (u : Universe) : Prop := ∀ {k : Text} {t : Ty}, u.lookup? k = some t → t.key = k ∧ t.Named

theorem Sound.wellNamed (hu : u.Sound h) : u.WellNamed := by
  intro k t hk
  obtain rfl := hu.key_eq hk
  exact ⟨rfl, hu.named hk⟩

/-- A named type is kept as a named type of its key. -/
theorem WellNamed.intern (hu : u.WellNamed) (ht : t.Named) :
    (u.intern t).2.WellNamed ∧ (u.intern t).1.key = t.key ∧ (u.intern t).1.Named := by
  rw [Universe.intern]
  cases hkept : u.lookup? t.key with
  | some kept =>
    simp only [show u.table[t.key]? = some kept from hkept]
    exact ⟨hu, hu hkept⟩
  | none =>
    simp only [show u.table[t.key]? = none from hkept]
    refine ⟨fun {k s} hs => ?_, trivial, ht⟩
    rcases (lookup?_insert hkept).1 hs with ⟨rfl, rfl⟩ | hs
    · exact ⟨rfl, ht⟩
    · exact hu hs

end Universe

/-! ## Computations that do not stall -/

/-- Whether steps ran out before makes no difference to the computation, and they do not run out in it. -/
def Unheeding {α : Type} (y : InUniverse α) (u : Universe) : Prop :=
  ∀ spent : Bool, y.run { u with spent } = ((y.run u).1, { (y.run u).2 with spent })

/-- In every universe of named types the first computation does not stall and does what the second one does,
and the universe is left as one of named types, with a result of which `Q` holds. -/
def Ends {α : Type} (x : Stalling α) (y : InUniverse α) (Q : α → Prop) : Prop :=
  ∀ u : Universe, u.WellNamed →
    x.run.run u = Prod.map some id (y.run u) ∧ (y.run u).2.WellNamed ∧ Q (y.run u).1 ∧ Unheeding y u

namespace Ends

variable {α β : Type} {x x' : Stalling α} {y y' : InUniverse α} {P Q : α → Prop} {R : β → Prop}
  {n d : Nat} {t : Ty} {ts : List Ty}

theorem pure {a : α} (ha : Q a) : Ends (Pure.pure a) (Pure.pure a) Q := fun _ hu => ⟨rfl, hu, ha, fun _ => rfl⟩

/-- Something is found, and `Q` holds of it. -/
theorem some {a : α} (ha : Q a) :
    Ends (Pure.pure (Option.some a)) (Pure.pure (Option.some a)) fun found => ∀ b ∈ found, Q b :=
  .pure (by simpa using ha)

theorem imp (hx : Ends x y P) (hPQ : ∀ a, P a → Q a) : Ends x y Q := fun u hu =>
  have h := hx u hu
  ⟨h.1, h.2.1, hPQ _ h.2.2.1, h.2.2.2⟩

theorem bind {f : α → Stalling β} {g : α → InUniverse β} (hx : Ends x y P)
    (hf : ∀ a, P a → Ends (f a) (g a) R) : Ends (x >>= f) (y >>= g) R := by
  intro u hu
  obtain ⟨hrun, hv, ha, hmark⟩ := hx u hu
  obtain ⟨hrest, hw, hb, hmark'⟩ := hf _ ha _ hv
  refine ⟨?_, hw, hb, fun spent => ?_⟩
  · rw [OptionT.run_bind, Option.elimM, StateT.run_bind, hrun]
    exact hrest
  · rw [StateT.run_bind, hmark]
    exact hmark' spent

/-- A question that does not run out of steps may as well be asked without a bound. -/
theorem bounded {a : α} (hx : Ends x y Q) : Ends x (TypeStore.bounded a y) Q := by
  have hrun (u : Universe) (hu : u.WellNamed) : (TypeStore.bounded a y : InUniverse α).run u = y.run u := by
    have hmark := (hx u hu).2.2.2
    rw [Universe.run_bounded, hmark false, if_neg (by simp)]
    exact (hmark u.spent).symm
  intro u hu
  obtain ⟨hsame, hv, ha, hmark⟩ := hx u hu
  rw [hrun u hu]
  refine ⟨hsame, hv, ha, fun spent => ?_⟩
  rw [hrun { u with spent } hu, hrun u hu, hmark]

theorem ite {c : Prop} [Decidable c] (hx : Ends x y Q) (hx' : Ends x' y' Q) :
    Ends (if c then x else x') (if c then y else y') Q := by
  split
  · exact hx
  · exact hx'

/-! ### Loops over lists -/

theorem anyM {p : α → Stalling Bool} {q : α → InUniverse Bool} {xs : List α}
    (hp : ∀ x ∈ xs, Ends (p x) (q x) fun _ => True) : Ends (xs.anyM p) (xs.anyM q) fun _ => True := by
  induction xs with
  | nil => exact .pure trivial
  | cons x xs ih =>
    rw [List.anyM, List.anyM]
    refine .bind (hp x (by simp)) fun b _ => ?_
    cases b with
    | true => exact .pure trivial
    | false => exact ih fun y hy => hp y (by simp [hy])

theorem allM {p : α → Stalling Bool} {q : α → InUniverse Bool} {xs : List α}
    (hp : ∀ x ∈ xs, Ends (p x) (q x) fun _ => True) : Ends (xs.allM p) (xs.allM q) fun _ => True := by
  induction xs with
  | nil => exact .pure trivial
  | cons x xs ih =>
    rw [List.allM, List.allM]
    refine .bind (hp x (by simp)) fun b _ => ?_
    cases b with
    | true => exact ih fun y hy => hp y (by simp [hy])
    | false => exact .pure trivial

theorem mapM {f : α → Stalling β} {g : α → InUniverse β} {xs : List α}
    (hf : ∀ x ∈ xs, Ends (f x) (g x) R) : Ends (xs.mapM f) (xs.mapM g) fun ys => ∀ y ∈ ys, R y := by
  induction xs with
  | nil => exact .pure (by simp)
  | cons x xs ih =>
    rw [List.mapM_cons, List.mapM_cons]
    refine .bind (hf x (by simp)) fun y hy => .bind (ih fun z hz => hf z (by simp [hz])) fun ys hys => ?_
    exact .pure (List.forall_mem_cons.2 ⟨hy, hys⟩)

/-! ### The store -/

/-- What neither stalls nor looks for what ran out. -/
theorem lift (hy : ∀ u : Universe, u.WellNamed → (y.run u).2.WellNamed ∧ Q (y.run u).1 ∧ Unheeding y u) :
    Ends (OptionT.lift y) y Q := by
  refine fun u hu => ⟨?_, hy u hu⟩
  rw [OptionT.run_lift]
  rfl

theorem intern (ht : t.Named) :
    Ends (TypeStore.intern t) (TypeStore.intern t) fun s => s.key = t.key ∧ s.Named :=
  .lift fun u hu => by
    obtain ⟨hv, hs⟩ := hu.intern ht
    refine ⟨hv, hs, fun spent => ?_⟩
    show ({ u with spent } : Universe).intern t = ((u.intern t).1, { (u.intern t).2 with spent })
    rw [Universe.intern, Universe.intern]
    dsimp only
    split <;> rfl

theorem intern_confined (ht : t.Confined n d) :
    Ends (TypeStore.intern t) (TypeStore.intern t) (Ty.Confined n d) :=
  (intern ht.named).imp fun _ hs => ht.of_key_eq hs.2 hs.1

theorem intern_lone (ht : t.Lone n d) : Ends (TypeStore.intern t) (TypeStore.intern t) (Ty.Lone n d) :=
  (intern ht.named).imp fun _ hs => ht.of_key_eq hs.2 hs.1

theorem literal (l : Literal) : Ends (TypeStore.literal l) (TypeStore.literal l) (Ty.Confined n d) :=
  intern_confined (.literal l)

theorem hierarchy : Ends TypeStore.hierarchy TypeStore.hierarchy fun _ => True :=
  .lift fun _ hu => ⟨hu, trivial, fun _ => rfl⟩

theorem answered? (question : Text × Text) :
    Ends (TypeStore.answered? question) (TypeStore.answered? question) fun _ => True := by
  have hrun (u : Universe) : (TypeStore.answered? question : InUniverse _).run u =
      if u.memory.capacity = 0 then (none, u)
      else ((u.memory.answered? question).1, { u with memory := (u.memory.answered? question).2 }) := rfl
  refine .lift fun u hu => ⟨?_, trivial, fun spent => ?_⟩
  · rw [hrun]
    split
    · exact hu
    · exact hu
  · rw [hrun, hrun]
    dsimp only
    split <;> rfl

theorem remember (question : Text × Text) (answer : Bool) :
    Ends (TypeStore.remember question answer) (TypeStore.remember question answer) fun _ => True :=
  .lift fun _ hu => ⟨hu, trivial, fun _ => rfl⟩

/-- A union is the same tree in every store, up to the tree that is kept for it. -/
theorem union (hts : ∀ t ∈ ts, t.Confined n d) :
    Ends (TypeStore.union ts) (TypeStore.union ts) (Ty.Confined n d) := by
  have hideal : (Hierarchy.union {} ts).Confined n d := Hierarchy.union_confined hts
  rw [Hierarchy.union, TypeStore.union] at hideal
  rw [TypeStore.union, TypeStore.union]
  cases hflat : Ty.alternativesAll ts with
  | none => exact .pure (.of_atom (by simp [Ty.atoms]))
  | some flat =>
    simp only [hflat] at hideal
    refine .bind (literal (n := n) (d := d) _) fun _ _ => .bind (literal (n := n) (d := d) _) fun _ _ => ?_
    rcases hms : Ty.dropAbsorbed (Ty.addBoolean (Ty.dedup flat)) with _ | ⟨m, _ | ⟨m', ms⟩⟩
    · exact .pure (.of_atom (by simp [Ty.atoms]))
    · exact .pure (by simpa [hms, TypeStore.unionOf] using hideal)
    · exact .intern_confined (by simpa [hms, TypeStore.unionOf] using hideal)

end Ends
end FlowTyping
