import FlowTyping.Proofs.Relation.Faithful
import FlowTyping.Proofs.Relation.Lineage
import FlowTyping.Proofs.Store.Sound
import FlowTyping.Ty.Rebuild

/-!
# Ways to keep a universe in order

What holds of a universe at all times depends on what may be done with it: where names are words more can be
promised than where they are anything. Whatever is promised, every operation of the public interface is built from
a few others. This module names what has to be shown of these, and shows it of the operations: asked about
entries of a universe that is in order, they keep it in order and answer entries again.

* **`Universe.Regime`** — what holds of a universe at all times, how it may grow, and which names may be used.
* **`Regime.Yields`** — in a universe of this kind and in every one that comes of it, a computation keeps the
  universe so and ends with a result of which something holds. **`Yields.bind`** follows it step by step.
* **`Regime.Serving`** — what the operations are built from keeps universes of this kind.
* **`Serving.object`**, **`Serving.filterMembers`**, … — then so do the operations that answer a type, and
  **`Serving.rebuild`** with entries in the place of type parameters.
* **`Universe.serving_sound`** — sound universes stay sound.
* **`Universe.declareClass_sound`** — declaring a class, after which the universe is sound for the new
  hierarchy.
-/

namespace FlowTyping

namespace Ty

/-- The names that stand at the type itself. -/
def ownNames : Ty → List Text
  | .object tag props => tag :: props.map (·.name)
  | .var name _ => [name]
  | _ => []

theorem ownNamed_iff {t : Ty} : t.OwnNamed ↔ ∀ name ∈ t.ownNames, name.IsWord := by
  cases t <;> simp [OwnNamed, ownNames]

end Ty

namespace Universe

open Ty

/-- What holds of universes at all times, and how they may grow. -/
structure Regime where
  Holds : Universe → Prop
  Grows : Universe → Universe → Prop
  /-- A name that types may be made with. -/
  Word : Text → Prop
  refl : ∀ u : Universe, Grows u u
  trans : ∀ {u v w : Universe}, Grows u v → Grows v w → Grows u w
  keeps : ∀ {u v : Universe} {t : Ty}, Grows u v → u.Keeps t → v.Keeps t
  key_eq : ∀ {u : Universe} {k : Text} {t : Ty}, Holds u → u.lookup? k = some t → t.key = k
  part : ∀ {u : Universe} {t : Ty}, Holds u → u.Keeps t → ∀ s ∈ t.parts, u.Keeps s
  atom : ∀ {u : Universe} {t : Ty}, Holds u → t ∈ atoms → u.Keeps t
  shape : ∀ {u : Universe}, Holds u → ∀ c ∈ u.classes.classes, ∀ t ∈ c.shape, u.Keeps t
  word : ∀ {u : Universe} {t : Ty}, Holds u → u.Keeps t → ∀ name ∈ t.ownNames, Word name
  orderly : ∀ {u : Universe} {t : Ty}, Holds u → u.Keeps t → t.isInter = false → t.Orderly

namespace Regime

variable {α β γ : Type} {R : Regime} {u v : Universe} {x : InUniverse α} {Q Q' : Universe → α → Prop}

/-- In this universe and in every one that comes of it, the computation keeps the universe in order and ends with
such a result. -/
def Yields (R : Regime) (u : Universe) (x : InUniverse α) (Q : Universe → α → Prop) : Prop :=
  ∀ v : Universe, R.Holds v → R.Grows u v →
    R.Holds (x.run v).2 ∧ R.Grows v (x.run v).2 ∧ Q (x.run v).2 (x.run v).1

/-- The computation answers an entry. -/
abbrev Answers (R : Regime) (u : Universe) (x : InUniverse Ty) : Prop := R.Yields u x Keeps

namespace Yields

theorem grows (hx : R.Yields u x Q) (huv : R.Grows u v) : R.Yields v x Q :=
  fun w hw hvw => hx w hw (R.trans huv hvw)

theorem of_holds (hx : ∀ v : Universe, R.Holds v → R.Grows u v → R.Yields v x Q) : R.Yields u x Q :=
  fun v hv huv => hx v hv huv v hv (R.refl v)

theorem pure {a : α} (hq : ∀ v : Universe, R.Holds v → R.Grows u v → Q v a) : R.Yields u (pure a) Q :=
  fun v hv huv => ⟨hv, R.refl v, hq v hv huv⟩

theorem bind {f : α → InUniverse β} {P : Universe → β → Prop} (hx : R.Yields u x Q)
    (hf : ∀ (v : Universe) (a : α), R.Holds v → R.Grows u v → Q v a → R.Yields v (f a) P) :
    R.Yields u (x >>= f) P := by
  intro v hv huv
  obtain ⟨hw, hvw, hq⟩ := hx v hv huv
  obtain ⟨hw', hww', hq'⟩ := hf _ _ hw (R.trans huv hvw) hq _ hw (R.refl _)
  exact ⟨hw', R.trans hvw hww', hq'⟩

/-- What comes after a choice is done after either side. -/
theorem ite_bind {c : Prop} [Decidable c] {y : InUniverse α} {f : α → InUniverse β} {P : Universe → β → Prop}
    (hxy : R.Yields u (if c then x else y) Q)
    (hf : ∀ (v : Universe) (a : α), R.Holds v → R.Grows u v → Q v a → R.Yields v (f a) P) :
    R.Yields u (if c then x >>= f else y >>= f) P := by
  split <;> rename_i hc
  · exact (if_pos (t := x) (e := y) hc ▸ hxy).bind hf
  · exact (if_neg (t := x) (e := y) hc ▸ hxy).bind hf

theorem imp (hx : R.Yields u x Q)
    (hq : ∀ (v : Universe) (a : α), R.Holds v → R.Grows u v → Q v a → Q' v a) : R.Yields u x Q' := by
  intro v hv huv
  obtain ⟨hw, hvw, hqa⟩ := hx v hv huv
  exact ⟨hw, hvw, hq _ _ hw (R.trans huv hvw) hqa⟩

/-- A loop that collects results, each of which stays as good as it was. -/
theorem mapM {f : α → InUniverse β} {xs : List α} {P : Universe → α → β → Prop}
    (hP : ∀ {v w : Universe} {x : α} {y : β}, R.Grows v w → P v x y → P w x y)
    (hf : ∀ x ∈ xs, R.Yields u (f x) fun v y => P v x y) :
    R.Yields u (xs.mapM f) fun v ys => List.Forall₂ (P v) xs ys := by
  induction xs generalizing u with
  | nil => exact .pure fun _ _ _ => .nil
  | cons x xs ih =>
    rw [List.mapM_cons]
    refine (hf x (by simp)).bind fun v y _ huv hy => ?_
    refine (ih fun z hz => (hf z (by simp [hz])).grows huv).bind fun w ys _ hvw hys => .pure fun w' _ hww' => ?_
    exact .cons (hP (R.trans hvw hww') hy) (hys.imp fun _ _ h => hP hww' h)

/-- A loop that picks elements, each of which stays what it was. -/
theorem filterM {p : α → InUniverse Bool} {xs : List α} (hp : ∀ x ∈ xs, R.Yields u (p x) fun _ _ => True) :
    R.Yields u (xs.filterM p) fun _ ys => ∀ y ∈ ys, y ∈ xs := by
  have hloop (acc : List α) : R.Yields u (List.filterAuxM p xs acc) fun _ ys => ∀ y ∈ ys, y ∈ xs ∨ y ∈ acc := by
    induction xs generalizing u acc with
    | nil => exact .pure fun _ _ _ y hy => .inr hy
    | cons x xs ih =>
      rw [List.filterAuxM]
      refine (hp x (by simp)).bind fun v b _ huv _ => ?_
      refine (ih (fun z hz => (hp z (by simp [hz])).grows huv) _).imp fun _ ys _ _ hys y hy => ?_
      rcases hys y hy with hy | hy
      · exact .inl (by simp [hy])
      · cases b with
        | true => exact (List.mem_cons.1 hy).imp (by rintro rfl; simp) id
        | false => exact .inr hy
  rw [List.filterM]
  refine (hloop []).bind fun v ys _ _ hys => .pure fun _ _ _ y hy => ?_
  simpa using hys y (List.mem_reverse.1 hy)

/-- A loop that asks until an answer is yes. -/
theorem anyM {p : α → InUniverse Bool} {xs : List α} (hp : ∀ x ∈ xs, R.Yields u (p x) fun _ _ => True) :
    R.Yields u (xs.anyM p) fun _ _ => True := by
  induction xs generalizing u with
  | nil => exact .pure fun _ _ _ => trivial
  | cons x xs ih =>
    rw [List.anyM]
    refine (hp x (by simp)).bind fun v b _ huv _ => ?_
    cases b with
    | true => exact .pure fun _ _ _ => trivial
    | false => exact ih fun y hy => (hp y (by simp [hy])).grows huv

/-- A loop that changes a value, of which something holds before and after each turn. -/
theorem foldlM {f : β → α → InUniverse β} {xs : List α} {P : Universe → β → Prop} {b : β} (hb : P u b)
    (hP : ∀ {v w : Universe} {b : β}, R.Grows v w → P v b → P w b)
    (hf : ∀ x ∈ xs, ∀ (v : Universe) (b : β), R.Grows u v → P v b → R.Yields v (f b x) P) :
    R.Yields u (xs.foldlM f b) P := by
  induction xs generalizing u b with
  | nil => exact .pure fun _ _ huv => hP huv hb
  | cons x xs ih =>
    rw [List.foldlM_cons]
    refine (hf x (by simp) u b (R.refl u) hb).bind fun v c _ huv hc => ?_
    exact ih hc fun y hy w d hvw => hf y (by simp [hy]) w d (R.trans huv hvw)

end Yields

/-- The members of an entry are entries. -/
theorem keeps_member {t m : Ty} (hu : R.Holds u) (ht : u.Keeps t) (hm : m ∈ t.members) : u.Keeps m :=
  of_mem_members ht (R.part hu ht) hm

theorem yields_hierarchy : R.Yields u TypeStore.hierarchy fun v h => h = v.classes :=
  fun v hv _ => ⟨hv, R.refl v, rfl⟩

/-- What the operations are built from keeps universes in order, and answers entries. -/
structure Serving (R : Regime) : Prop where
  intern : ∀ {u : Universe} {t : Ty}, (∀ s ∈ t.parts, u.Keeps s) → (∀ name ∈ t.ownNames, R.Word name) → t.Orderly →
    t.isInter = false → R.Answers u (TypeStore.intern t)
  union : ∀ {u : Universe} {ts : List Ty}, (∀ t ∈ ts, u.Keeps t) → R.Answers u (TypeStore.union ts)
  intersect : ∀ {u : Universe} {ts : List Ty}, (∀ t ∈ ts, u.Keeps t) → R.Answers u (TypeStore.intersect ts)
  propertyOf : ∀ {u : Universe} {t : Ty} (name : Text), u.Keeps t →
    R.Yields u (TypeStore.propertyOf t name) fun v found => ∀ p ∈ found, v.Keeps p.type
  subtype : ∀ {u : Universe} {a b : Ty}, u.Keeps a → u.Keeps b → R.Yields u (TypeStore.subtype a b) fun _ _ => True
  disjoint : ∀ {u : Universe} {a b : Ty}, u.Keeps a → u.Keeps b → R.Yields u (TypeStore.disjoint a b) fun _ _ => True

theorem Serving.union_two {a b : Ty} (hR : R.Serving) (ha : u.Keeps a) (hb : u.Keeps b) :
    R.Answers u (TypeStore.union [a, b]) :=
  hR.union (by simpa using ⟨ha, hb⟩)

theorem Serving.intersect_two {a b : Ty} (hR : R.Serving) (ha : u.Keeps a) (hb : u.Keeps b) :
    R.Answers u (TypeStore.intersect [a, b]) :=
  hR.intersect (by simpa using ⟨ha, hb⟩)

/-- Names are words, and everything answered is right for the classes. -/
def sound (h : Hierarchy) : Regime where
  Holds := Sound h
  Grows := Universe.Grows h
  Word := Text.IsWord
  refl := .refl h
  trans := .trans
  keeps huv ht := huv.keeps ht
  key_eq hu hk := hu.key_eq hk
  part hu ht := hu.part ht
  atom hu ht := hu.atom ht
  shape hu c hc := hu.shape c (hu.classes_eq ▸ hc)
  word hu ht := ownNamed_iff.1 (hu.ownNamed ht)
  orderly hu ht _ := hu.orderly ht

end Regime

end Universe
end FlowTyping

/-! ## Operations on entries -/

namespace FlowTyping.Universe

open Ty

variable {h : Hierarchy} {u : Universe} {a b t : Ty} {ts : List Ty}

/-- Entries stand for themselves. -/
theorem Sound.stands_all (hu : u.Sound h) (hts : ∀ t ∈ ts, u.Keeps t) : List.Forall₂ u.Stands ts ts :=
  List.forall₂_same.2 fun t ht => hu.stands (hts t ht)

theorem Sound.stands_option (hu : u.Sound h) {o : Option Ty} (ho : ∀ t ∈ o, u.Keeps t) :
    Option.Rel u.Stands o o := by
  cases o with
  | none => exact .none
  | some t => exact .some (hu.stands (ho t rfl))

/-- The members of an entry are entries. -/
theorem Sound.keeps_members (hu : u.Sound h) (ht : u.Keeps t) {m : Ty} (hm : m ∈ t.members) : u.Keeps m :=
  of_mem_members ht (hu.part ht) hm

/-! ## Lists of pieces -/

section Pieces

variable {subst : Subst}

theorem rebuildProps_eq (ps : List (Property Ty)) :
    (TypeStore.rebuildProps subst ps : InUniverse _) = ps.mapM fun p => do
      let t ← TypeStore.rebuild subst p.type
      return { p with type := t } := by
  induction ps with
  | nil => rfl
  | cons p ps ih => simp [TypeStore.rebuildProps, List.mapM_cons, ih]

theorem rebuildElems_eq (es : List (Elem Ty)) :
    (TypeStore.rebuildElems subst es : InUniverse _) = es.mapM fun e => do
      let t ← TypeStore.rebuild subst e.type
      return { e with type := t } := by
  induction es with
  | nil => rfl
  | cons e es ih => simp [TypeStore.rebuildElems, List.mapM_cons, ih]

theorem rebuildParams_eq (ps : List (Param Ty)) :
    (TypeStore.rebuildParams subst ps : InUniverse _) = ps.mapM fun p => do
      let t ← TypeStore.rebuild subst p.type
      return { p with type := t } := by
  induction ps with
  | nil => rfl
  | cons p ps ih => simp [TypeStore.rebuildParams, List.mapM_cons, ih]

theorem rebuildAll_eq (ts : List Ty) :
    (TypeStore.rebuildAll subst ts : InUniverse _) = ts.mapM (TypeStore.rebuild subst) := by
  induction ts with
  | nil => rfl
  | cons t ts ih => simp [TypeStore.rebuildAll, List.mapM_cons, ih]

/-- Elements with the same marks are in order alike. -/
theorem ordered_of_marks {es fs : List (Elem Ty)} (hmarks : es.map (·.optional) = fs.map (·.optional))
    (horder : es.Pairwise fun e f => e.optional = true → f.optional = true) :
    fs.Pairwise fun e f => e.optional = true → f.optional = true := by
  have hmapped : (es.map (·.optional)).Pairwise fun p q => p = true → q = true :=
    List.pairwise_map.2 horder
  rw [hmarks] at hmapped
  exact List.pairwise_map.1 hmapped

theorem keeps_get? (hsubst : ∀ binding ∈ subst, u.Keeps binding.type) {param : Ty}
    (hget : subst.get? param = some t) : u.Keeps t := by
  obtain ⟨binding, hfind, rfl⟩ := Option.map_eq_some_iff.1 hget
  exact hsubst binding (List.mem_of_find?_eq_some hfind)

/-- Rebuilding a list of pieces, each with a type in it, changes these types alone. -/
theorem Regime.yields_pieces {R : Regime} {α : Type} {xs : List α} {type : α → Ty} {withType : α → Ty → α}
    {P : Universe → Ty → Prop} (hP : ∀ {v w : Universe} {t : Ty}, R.Grows v w → P v t → P w t)
    (hxs : ∀ x ∈ xs, R.Yields u (TypeStore.rebuild subst (type x)) P) :
    R.Yields u
      (xs.mapM fun x => do
        let t ← TypeStore.rebuild subst (type x)
        return withType x t)
      fun v ys => List.Forall₂ (fun x y => ∃ t, P v t ∧ y = withType x t) xs ys :=
  .mapM (fun hvw ⟨t, ht, hy⟩ => ⟨t, hP hvw ht, hy⟩) fun x hx => (hxs x hx).bind fun _ t _ _ ht =>
    .pure fun _ _ hvw => ⟨t, hP hvw ht, rfl⟩

theorem keeps_pieces {α : Type} {xs : List α} {type : α → Ty} {withType : α → Ty → α}
    {P : Universe → Ty → Prop} (hP : ∀ {v w : Universe} {t : Ty}, v.Grows h w → P v t → P w t)
    (hxs : ∀ x ∈ xs, u.Yields h (TypeStore.rebuild subst (type x)) P) :
    u.Yields h
      (xs.mapM fun x => do
        let t ← TypeStore.rebuild subst (type x)
        return withType x t)
      fun v ys => List.Forall₂ (fun x y => ∃ t, P v t ∧ y = withType x t) xs ys :=
  Regime.yields_pieces (R := .sound h) hP hxs

theorem run_normalize_eq : (TypeStore.normalize t : InUniverse Ty).run u =
    match u.lookup? t.key with
    | some kept => (kept, u)
    | none => (TypeStore.rebuild [] t : InUniverse Ty).run u := by
  have hlookup : (TypeStore.lookup? t.key : InUniverse (Option Ty)).run u = (u.lookup? t.key, u) := rfl
  rw [TypeStore.normalize, StateT.run_bind, hlookup]
  show StateT.run (match u.lookup? t.key with
    | some kept => pure kept
    | none => TypeStore.rebuild [] t : InUniverse Ty) u = _
  cases u.lookup? t.key <;> rfl

/-- An entry is what the universe keeps for a type of its key. -/
theorem run_normalize_of_key {s : Ty} (ht : u.Keeps t) (hk : s.key = t.key) :
    (TypeStore.normalize s : InUniverse Ty).run u = (t, u) := by
  rw [run_normalize_eq, hk, show u.lookup? t.key = some t from ht]

theorem run_normalize (ht : u.Keeps t) : (TypeStore.normalize t : InUniverse Ty).run u = (t, u) :=
  run_normalize_of_key ht rfl

end Pieces

/-! ## Operations -/

/-- All of the type can be made: its names may be used, and what stands in it stands in order. -/
inductive Regime.Makes (R : Regime) : Ty → Prop where
  | intro {t : Ty} (hwords : ∀ name ∈ t.ownNames, R.Word name) (horderly : t.isInter = false → t.Orderly)
    (hparts : ∀ s ∈ t.parts, R.Makes s) : R.Makes t

/-- Entries can be made. -/
theorem Regime.makes_of_keeps {R : Regime} (hu : R.Holds u) (ht : u.Keeps t) : R.Makes t := by
  induction t using parts_induction with
  | step t ih => exact .intro (R.word hu ht) (R.orderly hu ht) fun s hs => ih s hs (R.part hu ht s hs)

theorem Regime.answers_normalize {R : Regime} (ht : u.Keeps t) : R.Answers u (TypeStore.normalize t) := by
  intro v hv huv
  rw [run_normalize (R.keeps huv ht)]
  exact ⟨hv, R.refl v, R.keeps huv ht⟩

namespace Regime.Serving

variable {R : Regime} (hR : R.Serving)

include hR

theorem literal (l : Literal) : R.Answers u (TypeStore.literal l) :=
  hR.intern (t := .literal l) (by simp [parts]) (by simp [ownNames]) trivial rfl

theorem object {tag : String} {props : List (Property Ty)} (htag : R.Word tag)
    (hnames : ∀ p ∈ props, R.Word p.name) (hprops : ∀ p ∈ props, u.Keeps p.type) :
    R.Answers u (TypeStore.object tag props) := by
  refine hR.intern (t := .object tag (TypeStore.sortProps props)) (fun s hs => ?_) (fun name hname => ?_)
    (TypeStore.sortProps_increasing props) rfl
  · obtain ⟨p, hp, rfl⟩ := List.mem_map.1 hs
    exact hprops p (TypeStore.mem_of_mem_sortProps hp)
  · rcases List.mem_cons.1 hname with rfl | hname
    · exact htag
    · obtain ⟨p, hp, rfl⟩ := List.mem_map.1 hname
      exact hnames p (TypeStore.mem_of_mem_sortProps hp)

theorem tuple {elems : List (Elem Ty)} {rest : Option Ty}
    (horder : elems.Pairwise fun e f => e.optional = true → f.optional = true)
    (helems : ∀ e ∈ elems, u.Keeps e.type) (hrest : ∀ t ∈ rest, u.Keeps t) :
    R.Answers u (TypeStore.tuple elems rest) := by
  refine hR.intern (t := .tuple elems rest) (fun s hs => ?_) (by simp [ownNames]) horder rfl
  rcases List.mem_append.1 hs with hs | hs
  · obtain ⟨e, he, rfl⟩ := List.mem_map.1 hs
    exact helems e he
  · exact hrest s (Option.mem_toList.1 hs)

theorem function {params : List (Param Ty)} {ret : Ty} (hparams : ∀ p ∈ params, u.Keeps p.type)
    (hret : u.Keeps ret) : R.Answers u (TypeStore.function params ret) := by
  refine hR.intern (t := .function params ret) (fun s hs => ?_) (by simp [ownNames]) trivial rfl
  rcases List.mem_append.1 hs with hs | hs
  · obtain ⟨p, hp, rfl⟩ := List.mem_map.1 hs
    exact hparams p hp
  · exact List.mem_singleton.1 hs ▸ hret

theorem typeVar {name : String} {bound : Option Ty} (hname : R.Word name) (hbound : ∀ t ∈ bound, u.Keeps t) :
    R.Answers u (TypeStore.typeVar name bound) :=
  hR.intern (t := .var name bound) (fun s hs => hbound s (Option.mem_toList.1 hs)) (by simpa [ownNames] using hname)
    trivial rfl

theorem filterMembers (ht : u.Keeps t) (keep : Ty → Bool) : R.Answers u (TypeStore.filterMembers t keep) :=
  .of_holds fun _ hv huv => hR.union fun _ hm => R.keeps_member hv (R.keeps huv ht) (List.mem_filter.1 hm).1

theorem keysOf (t : Ty) : R.Answers u (TypeStore.keysOf t) := by
  rw [TypeStore.keysOf.eq_def]
  split
  · refine (Yields.mapM (P := fun v _ t => v.Keeps t) R.keeps fun p _ => hR.literal _).bind
      fun v ts _ _ hts => hR.union fun t ht => ?_
    obtain ⟨_, -, ht⟩ := exists_mem_left hts ht
    exact ht
  · exact .pure fun v hv _ => R.atom hv (by simp [atoms])

variable {subst : Subst}

/-- A type that can be made is rebuilt, whether or not it is an entry. -/
theorem rebuild (hsubst : ∀ binding ∈ subst, u.Keeps binding.type) (ht : R.Makes t) :
    R.Answers u (TypeStore.rebuild subst t) := by
  induction ht generalizing u with
  | @intro t hwords horderly hparts ih =>
    refine .of_holds fun v hv huv => ?_
    replace hsubst : ∀ binding ∈ subst, v.Keeps binding.type :=
      fun binding hb => R.keeps huv (hsubst binding hb)
    have hpart (s) (hs : s ∈ t.parts) : R.Answers v (TypeStore.rebuild subst s) := ih s hs hsubst
    have hall {ms : List Ty} (hms : ∀ m ∈ ms, R.Answers v (TypeStore.rebuild subst m)) :
        R.Yields v (TypeStore.rebuildAll subst ms) fun w ts => ∀ t ∈ ts, w.Keeps t := by
      rw [rebuildAll_eq]
      refine (Yields.mapM (P := fun v _ t => v.Keeps t) R.keeps hms).imp fun w ts _ _ hts t ht => ?_
      obtain ⟨_, -, ht⟩ := exists_mem_left hts ht
      exact ht
    have hself {s : Ty} (hs : v.Keeps s) : R.Answers v (pure s) := .pure fun _ _ hvw => R.keeps hvw hs
    cases t with
    | literal l =>
      rw [TypeStore.rebuild]
      exact hR.literal l
    | object tag props =>
      rw [TypeStore.rebuild, rebuildProps_eq]
      refine (yields_pieces (P := Keeps) R.keeps fun p hp =>
        hpart _ (List.mem_map_of_mem hp)).bind fun w ps _ _ hps => ?_
      refine hR.object (hwords _ (by simp [ownNames])) (fun q hq => ?_) fun q hq => ?_
      · obtain ⟨p, hp, t, -, rfl⟩ := exists_mem_left hps hq
        have hname : p.name ∈ props.map (·.name) := List.mem_map_of_mem hp
        exact hwords _ (List.mem_cons_of_mem _ hname)
      · obtain ⟨p, -, t, ht, rfl⟩ := exists_mem_left hps hq
        exact ht
    | tuple elems rest =>
      have horder : elems.Pairwise fun e f => e.optional = true → f.optional = true := horderly rfl
      -- the elements keep their marks, and with them their order
      have helems : R.Yields v (TypeStore.rebuildElems subst elems) fun w es =>
          (es.Pairwise fun e f => e.optional = true → f.optional = true) ∧
            ∀ e ∈ es, w.Keeps e.type := by
        rw [rebuildElems_eq]
        refine (yields_pieces (P := Keeps) R.keeps fun e he =>
          hpart _ (List.mem_append_left _ (List.mem_map_of_mem he))).imp
          fun w es _ _ hes => ⟨ordered_of_marks ?_ horder, fun f hf => ?_⟩
        · clear horder horderly hwords hparts hpart ih
          induction hes with
          | nil => rfl
          | cons he _ ih =>
            obtain ⟨t, -, rfl⟩ := he
            simp only [List.map_cons, ih]
        · obtain ⟨e, -, t, ht, rfl⟩ := exists_mem_left hes hf
          exact ht
      cases rest with
      | none =>
        rw [TypeStore.rebuild]
        exact helems.bind fun w es _ _ hes => hR.tuple hes.1 hes.2 (by simp)
      | some rest =>
        rw [TypeStore.rebuild]
        refine helems.bind fun w es _ hvw hes => ?_
        refine ((hpart rest (by simp [parts])).grows hvw).bind fun w' t _ hww' ht => ?_
        exact hR.tuple hes.1 (fun e he => R.keeps hww' (hes.2 e he)) (by simpa using ht)
    | function params ret =>
      rw [TypeStore.rebuild, rebuildParams_eq]
      refine (yields_pieces (P := Keeps) R.keeps fun p hp =>
        hpart _ (List.mem_append_left _ (List.mem_map_of_mem hp))).bind fun w ps _ hvw hps => ?_
      refine ((hpart ret (by simp [parts])).grows hvw).bind fun w' t _ hww' ht => ?_
      refine hR.function (fun q hq => ?_) ht
      obtain ⟨p, -, t, ht, rfl⟩ := exists_mem_left hps hq
      exact R.keeps hww' ht
    | union ms =>
      rw [TypeStore.rebuild]
      exact (hall hpart).bind fun w ts _ _ hts => hR.union hts
    | inter ms =>
      rw [TypeStore.rebuild]
      exact (hall hpart).bind fun w ts _ _ hts => hR.intersect hts
    | var name bound =>
      have hname : R.Word name := hwords name (by simp [ownNames])
      cases bound with
      | none =>
        rw [TypeStore.rebuild]
        split
        · exact hself (keeps_get? hsubst ‹_›)
        · exact hR.typeVar hname (by simp)
      | some bound =>
        rw [TypeStore.rebuild]
        split
        · exact hself (keeps_get? hsubst ‹_›)
        · exact (hpart bound (by simp [parts])).bind fun w t _ _ ht =>
            hR.typeVar hname (by simpa using ht)
    | _ =>
      rw [TypeStore.rebuild] <;> first | exact hself (R.atom hv (by simp [atoms])) | simp

theorem apply (ht : u.Keeps t) (hsubst : ∀ binding ∈ subst, u.Keeps binding.type) :
    R.Answers u (TypeStore.apply t subst) := by
  rw [TypeStore.apply]
  split
  · exact answers_normalize ht
  · exact .of_holds fun v hv huv => hR.rebuild (fun binding hb => R.keeps huv (hsubst binding hb))
      (makes_of_keeps hv (R.keeps huv ht))

/-- A type of another universe is taken over. -/
theorem adopt (ht : R.Makes t) : R.Answers u (TypeStore.normalize t) := by
  refine .of_holds fun v hv _ w hw hvw => ?_
  rw [run_normalize_eq]
  cases hlookup : w.lookup? t.key with
  | some kept =>
    have hkept : w.Keeps kept := by rw [Keeps, R.key_eq hw hlookup, hlookup]
    exact ⟨hw, R.refl w, hkept⟩
  | none => exact hR.rebuild (u := v) (by simp) ht w hw hvw

end Regime.Serving

/-- **Sound universes are kept sound** by what the operations are built from. -/
theorem serving_sound (h : Hierarchy) : (Regime.sound h).Serving := by
  have hentry {u : Universe} {x : InUniverse Ty} {t : Ty} (hx : u.Yields h x fun v r => v.Stands r t) :
      (Regime.sound h).Answers u x := hx.imp fun _ _ hv _ hs => hv.keeps_of_stands hs
  refine ⟨fun {u t} hparts hnames horderly hi => .of_holds fun v hv huv => ?_, fun hts => .of_holds fun v hv huv => ?_,
    fun hts => .of_holds fun v hv huv => ?_, fun {u t} name ht => .of_holds fun v hv huv => ?_,
    fun ha hb => .of_holds fun v hv huv => ?_, fun ha hb => .of_holds fun v hv huv => ?_⟩ <;>
    replace hv : v.Sound h := hv <;> replace huv : Universe.Grows h _ v := huv
  · have hnamed : t.Named := .intro (ownNamed_iff.2 hnames) fun s hs => hv.named (huv.keeps (hparts s hs))
    have hmirrors : Mirrors v.Stands t t := (mirrors_of_key_eq hnamed hnamed rfl).imp fun x hx y hy hxy =>
      (hv.stands (huv.keeps (hparts x hx))).of_key_eq (hnamed.part hy) hxy
    refine hentry (.intern hmirrors hnamed.own horderly ?_)
    rintro ms rfl
    simp [isInter] at hi
  · exact hentry (yields_union (hv.stands_all fun t ht => huv.keeps (hts t ht)))
  · exact hentry (yields_intersect (hv.stands_all fun t ht => huv.keeps (hts t ht)))
  · have hfound : v.Yields h (TypeStore.propertyOf t name) fun w found => ∀ p ∈ found, w.Keeps p.type := by
      refine (yields_propertyOf (hv.stands (huv.keeps ht)) name).imp fun w found hw _ hfound p hp => ?_
      generalize h.propertyOf _ name = found' at hfound
      cases hfound with
      | none => simp at hp
      | some hmirrors =>
        obtain rfl := Option.some.inj hp
        exact hw.keeps_of_stands hmirrors.type
    exact hfound
  · have hsays := says_subtype (h := h) (hv.stands (huv.keeps ha)) (hv.stands (huv.keeps hb))
    exact hsays.imp fun _ _ _ _ _ => trivial
  · have hsays := says_disjoint (h := h) (hv.stands (huv.keeps ha)) (hv.stands (huv.keeps hb))
    exact hsays.imp fun _ _ _ _ _ => trivial

theorem keeps_apply {subst : Subst} (ht : u.Keeps t) (hsubst : ∀ binding ∈ subst, u.Keeps binding.type) :
    u.Yields h (TypeStore.apply t subst) Keeps := (serving_sound h).apply ht hsubst

/-! ## Classes -/

section Classes

variable {name : String} {parents : List String} {props : List (Property Ty)}

/-- What a class takes over from its parents comes from entries. -/
theorem Regime.keeps_inherited {R : Regime} (hu : R.Holds u) {above : List (Property Ty)}
    (hinherited : InUniverse.inherited u.classes name parents = .ok above) :
    ∀ p ∈ above, u.Keeps p.type ∧ R.Word p.name := by
  induction parents generalizing above with
  | nil =>
    obtain rfl : [] = above := by simpa [InUniverse.inherited] using hinherited
    simp
  | cons parent parents ih =>
    rw [InUniverse.inherited] at hinherited
    cases hfind : u.classes.find? parent with
    | none => simp [hfind] at hinherited
    | some c =>
      -- the shape of a parent is an entry, so what is taken over from it is a part of one
      have hc : c ∈ u.classes.classes := List.mem_of_find?_eq_some hfind
      simp only [hfind] at hinherited
      cases hrest : InUniverse.inherited u.classes name parents with
      | error e => simp [hrest, Except.map] at hinherited
      | ok rest =>
        simp only [hrest, Except.map, Except.ok.injEq] at hinherited
        subst hinherited
        intro p hp
        rcases List.mem_append.1 hp with hp | hp
        · split at hp
          · rename_i tag own hshape
            have hkept := R.shape hu c hc _ hshape
            have hname : p.name ∈ own.map (·.name) := List.mem_map_of_mem hp
            exact ⟨R.part hu hkept _ (List.mem_map_of_mem hp), R.word hu hkept _ (List.mem_cons_of_mem _ hname)⟩
          · simp at hp
        · exact ih hrest p hp

theorem run_declareClass :
    (InUniverse.declareClass name parents props).run u =
      match InUniverse.inherited u.classes name parents with
      | .error e => (.error e, u)
      | .ok above =>
        let (shape, v) := (TypeStore.object name (above ++ props) : InUniverse Ty).run u
        match v.classes.declare { name, parents, shape := some shape } with
        | .error e => (.error e, v)
        | .ok classes => (.ok shape, { v with classes, memory := v.memory.clear }) := by
  rw [InUniverse.declareClass]
  show (match InUniverse.inherited u.classes name parents with
    | .error e => _
    | .ok above => _ : InUniverse (Except ClassError Ty)).run u = _
  cases InUniverse.inherited u.classes name parents with
  | error e => rfl
  | ok above =>
    simp only [StateT.run_bind]
    rcases (TypeStore.object name (above ++ props) : InUniverse Ty).run u with ⟨shape, v⟩
    show (match v.classes.declare { name, parents, shape := some shape } with
      | .error e => _
      | .ok classes => _ : InUniverse (Except ClassError Ty)).run v =
        match v.classes.declare { name, parents, shape := some shape } with
        | .error e => _
        | .ok classes => _
    cases v.classes.declare { name, parents, shape := some shape } <;> rfl

/-- Making a shape declares nothing. -/
theorem object_classes {tag : String} :
    ((TypeStore.object tag props : InUniverse Ty).run u).2.classes = u.classes := by
  show (u.intern _).2.classes = u.classes
  unfold intern
  dsimp only
  split <;> rfl

/-- A class with its shape is declared, or there is an error and the classes are as they were. -/
theorem declareClass_cases :
    (∃ e, ((InUniverse.declareClass name parents props).run u).1 = .error e ∧
      ((InUniverse.declareClass name parents props).run u).2.classes = u.classes) ∨
    ∃ shape, ((InUniverse.declareClass name parents props).run u).1 = .ok shape ∧
      u.classes.declare { name, parents, shape := some shape } =
        .ok ((InUniverse.declareClass name parents props).run u).2.classes := by
  rw [run_declareClass]
  split
  · exact .inl ⟨_, rfl, rfl⟩
  · rename_i above _
    have hclasses := @object_classes u (above ++ props) name
    generalize (TypeStore.object name (above ++ props) : InUniverse Ty).run u = made at hclasses
    obtain ⟨shape, v⟩ := made
    dsimp only at hclasses ⊢
    rw [← hclasses]
    split
    · exact .inl ⟨_, rfl, rfl⟩
    · rename_i hdeclare
      exact .inr ⟨shape, rfl, hdeclare⟩

/-- Making a shape adds that shape alone. -/
theorem keeps_of_object {tag : String} {s : Ty}
    (hs : ((TypeStore.object tag props : InUniverse Ty).run u).2.Keeps s) (hno : s.kind ≠ "object") :
    u.Keeps s := by
  have hrun : ((TypeStore.object tag props : InUniverse Ty).run u).2 =
      (u.intern (.object tag (TypeStore.sortProps props))).2 := rfl
  rw [hrun, Universe.intern] at hs
  cases hlookup : u.lookup? (Ty.object tag (TypeStore.sortProps props)).key with
  | some kept => simpa only [show u.table[_]? = some kept from hlookup] using hs
  | none =>
    simp only [show u.table[_]? = none from hlookup] at hs
    rcases (lookup?_insert hlookup).1 hs with ⟨-, rfl⟩ | hs
    · simp [kind] at hno
    · exact hs

/-- A universe takes up a class whose shape it keeps, with a memory that is right for the new hierarchy. -/
theorem Sound.declare {k : Hierarchy} (hu : u.Sound h) {c : ClassDecl} (hdeclare : h.declare c = .ok k)
    (hshape : ∀ t ∈ c.shape, u.Keeps t) {memory : Memory} (hright : memory.Right k) :
    ({ u with classes := k, memory } : Universe).Sound k := by
  obtain rfl := Hierarchy.eq_of_declare hdeclare
  refine ⟨rfl, hu.key_eq, hu.part, hu.ownNamed, hu.orderly, hu.apart, hu.atom, fun d hd t ht => ?_, hright,
    hu.unspent⟩
  rcases List.mem_cons.1 hd with rfl | hd
  · exact hshape t ht
  · exact hu.shape d hd t ht

/-- The shape of a class is made, and then the class is declared or there is an error. -/
theorem Regime.Serving.declareClass {R : Regime} (hR : R.Serving) (hu : R.Holds u) (hname : R.Word name)
    (hnames : ∀ p ∈ props, R.Word p.name) (hprops : ∀ p ∈ props, u.Keeps p.type) :
    ∃ v, R.Holds v ∧ R.Grows u v ∧ v.classes = u.classes ∧ (∀ ms, v.Keeps (.inter ms) → u.Keeps (.inter ms)) ∧
      ((∃ e, (InUniverse.declareClass name parents props).run u = (.error e, v)) ∨
        ∃ shape k, v.Keeps shape ∧ v.classes.declare { name, parents, shape := some shape } = .ok k ∧
          (InUniverse.declareClass name parents props).run u =
            (.ok shape, { v with classes := k, memory := v.memory.clear })) := by
  rw [run_declareClass]
  cases hinherited : InUniverse.inherited u.classes name parents with
  | error e => exact ⟨u, hu, R.refl u, rfl, fun _ => id, .inl ⟨e, rfl⟩⟩
  | ok above =>
    have habove := R.keeps_inherited hu hinherited
    -- the shape has the properties of the parents before those of its own
    have hobject : R.Answers u (TypeStore.object name (above ++ props)) := by
      refine hR.object hname (fun p hp => ?_) fun p hp => ?_
      · exact (List.mem_append.1 hp).elim (fun hp => (habove p hp).2) (hnames p)
      · exact (List.mem_append.1 hp).elim (fun hp => (habove p hp).1) (hprops p)
    have hinter (ms : List Ty) := @keeps_of_object u (above ++ props) name (.inter ms)
    have hclasses := @object_classes u (above ++ props) name
    obtain ⟨hv, huv, hshape⟩ := hobject u hu (R.refl u)
    dsimp only
    generalize (TypeStore.object name (above ++ props) : InUniverse Ty).run u = made
      at hv huv hshape hinter hclasses
    obtain ⟨shape, v⟩ := made
    refine ⟨v, hv, huv, hclasses, fun ms hk => hinter ms hk (by simp [kind]), ?_⟩
    dsimp only at hshape ⊢
    cases hdeclare : v.classes.declare { name, parents, shape := some shape } with
    | error e => exact .inl ⟨e, rfl⟩
    | ok k => exact .inr ⟨shape, k, hshape, hdeclare, rfl⟩

/-- Declaring a class adds no more than its shape, and the universe is sound for the new classes. -/
theorem declareClass_sound (hu : u.Sound h) (hname : Text.IsWord name)
    (hnames : ∀ p ∈ props, p.name.IsWord) (hprops : ∀ p ∈ props, u.Keeps p.type) :
    ∃ h', ((InUniverse.declareClass name parents props).run u).2.Sound h' ∧
      u.Grows h ((InUniverse.declareClass name parents props).run u).2 ∧
      (∀ ms, ((InUniverse.declareClass name parents props).run u).2.Keeps (.inter ms) →
        u.Keeps (.inter ms)) ∧
      ∀ t, ((InUniverse.declareClass name parents props).run u).1 = .ok t →
        ((InUniverse.declareClass name parents props).run u).2.Keeps t := by
  obtain ⟨v, hv, huv, -, hinter, ⟨e, hrun⟩ | ⟨shape, k, hshape, hdeclare, hrun⟩⟩ :=
    (serving_sound h).declareClass hu hname hnames hprops <;>
    replace hv : v.Sound h := hv <;> replace huv : u.Grows h v := huv <;> rw [hrun]
  · exact ⟨h, hv, huv, hinter, by simp⟩
  -- the memory is emptied, so it is right for the new classes, too
  · refine ⟨k, hv.declare (hv.classes_eq ▸ hdeclare) (by simpa using hshape) (Memory.right_of_empty _),
      ⟨huv.lookup?, huv.settled⟩, hinter, fun t ht => ?_⟩
    obtain rfl := Except.ok.inj ht
    exact hshape

end Classes

end FlowTyping.Universe
