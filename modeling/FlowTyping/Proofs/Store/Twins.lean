import FlowTyping.Proofs.Relation.Lineage
import FlowTyping.Proofs.Store.Keeping

/-!
# Two universes side by side

Two universes with the same classes may have met different types before, so that they keep different trees
for one key. This module follows one computation in both of them, on inputs that differ in nothing but
that.

* **`Twins.Alike w a b`** — `a` is an entry of the left universe and `b` one of the right, under one key.
* **`Twins.Agree w x y R`** — run in both universes, or in any that come of them, `x` and `y` keep both
  sound and end with results that are related. **`Agree.bind`** follows the two step by step.
* **`Twins.agree_union`**, **`Twins.same_subtype`**, … — the operations of the store on alike types: both
  universes answer what the plain operation says of one of the two inputs (`Universe.yields_union`, …).
-/

namespace FlowTyping

open Ty

/-! ## Hierarchies that differ in shapes -/

/-- Two declarations of one class, with related shapes. -/
structure ClassDecl.Mirrors (R : Ty → Ty → Prop) (c d : ClassDecl) : Prop where
  name : c.name = d.name
  parents : c.parents = d.parents
  shape : Option.Rel R c.shape d.shape

namespace Hierarchy

/-- The same classes, with related shapes; they may have been declared in another order. -/
def Mirrors (R : Ty → Ty → Prop) (h k : Hierarchy) : Prop :=
  ∀ name : String, Option.Rel (ClassDecl.Mirrors R) (h.find? name) (k.find? name)

/-- The classes are declared one after the other, and their names are words. -/
structure Proper (h : Hierarchy) : Prop where
  declared : Declared h.classes
  named : ∀ c ∈ h.classes, Text.IsWord c.name

variable {R S : Ty → Ty → Prop} {h k : Hierarchy}

theorem Proper.declare {c : ClassDecl} (hh : h.Proper) (hc : Text.IsWord c.name)
    (hk : h.declare c = .ok k) : k.Proper := by
  obtain ⟨hclasses, hdeclared⟩ := declared_of_declare hh.declared hk
  refine ⟨hdeclared, fun d hd => ?_⟩
  rw [hclasses] at hd
  rcases List.mem_cons.1 hd with rfl | hd
  · exact hc
  · exact hh.named d hd

theorem Mirrors.imp (hm : h.Mirrors R k)
    (hRS : ∀ c ∈ h.classes, ∀ s ∈ c.shape, ∀ d ∈ k.classes, ∀ t ∈ d.shape, R s t → S s t) :
    h.Mirrors S k := by
  intro name
  have hname := hm name
  generalize hc : h.find? name = o, hd : k.find? name = o' at hname
  cases hname with
  | none => exact .none
  | @some c d hcd =>
    refine .some ⟨hcd.name, hcd.parents, ?_⟩
    have hshape := hcd.shape
    generalize hs : c.shape = o, ht : d.shape = o' at hshape
    cases hshape with
    | none => exact .none
    | some hst =>
      exact .some (hRS c (List.mem_of_find?_eq_some hc) _ hs d (List.mem_of_find?_eq_some hd) _ ht hst)

/-- Which class derives from which is decided by names and parents. -/
theorem Mirrors.derives_eq (hm : h.Mirrors R k) (hh : h.Proper) (hk : k.Proper) :
    h.derives = k.derives := by
  refine derives_eq_of_parents hh.declared hk.declared fun name => ?_
  have hname := hm name
  generalize h.find? name = o, k.find? name = o' at hname
  cases hname with
  | none => rfl
  | some hcd => exact congrArg some hcd.parents

end Hierarchy

/-! ## Twins -/

/-- Two universes. -/
structure Twins where
  left : Universe
  right : Universe

namespace Twins

variable {w v : Twins} {a b : Ty} {as bs : List Ty}

/-- An entry of the left universe and an entry of the right one, under the same key. -/
structure Alike (w : Twins) (a b : Ty) : Prop where
  left : w.left.Keeps a
  right : w.right.Keeps b
  key_eq : a.key = b.key

/-- Both universes are sound, and have the same classes with alike shapes. -/
structure Sound (w : Twins) : Prop where
  left : w.left.Sound w.left.classes
  right : w.right.Sound w.right.classes
  left_proper : w.left.classes.Proper
  right_proper : w.right.classes.Proper
  classes : w.left.classes.Mirrors w.Alike w.right.classes

/-- What computations do to both universes. -/
structure Grows (w v : Twins) : Prop where
  left : w.left.Grows w.left.classes v.left
  right : w.right.Grows w.right.classes v.right
  left_classes : v.left.classes = w.left.classes
  right_classes : v.right.classes = w.right.classes

theorem Grows.refl (w : Twins) : w.Grows w := ⟨.refl _ _, .refl _ _, rfl, rfl⟩

theorem Grows.trans {x : Twins} (hwv : w.Grows v) (hvx : v.Grows x) : w.Grows x where
  left := hwv.left.trans (hwv.left_classes ▸ hvx.left)
  right := hwv.right.trans (hwv.right_classes ▸ hvx.right)
  left_classes := hvx.left_classes.trans hwv.left_classes
  right_classes := hvx.right_classes.trans hwv.right_classes

theorem Alike.grows (h : w.Alike a b) (hwv : w.Grows v) : v.Alike a b :=
  ⟨hwv.left.keeps h.left, hwv.right.keeps h.right, h.key_eq⟩

theorem alike_grows (h : List.Forall₂ w.Alike as bs) (hwv : w.Grows v) : List.Forall₂ v.Alike as bs :=
  h.imp fun _ _ h => h.grows hwv

namespace Sound

theorem derives_eq (hw : w.Sound) : w.left.classes.derives = w.right.classes.derives :=
  hw.classes.derives_eq hw.left_proper hw.right_proper

theorem stands_left (hw : w.Sound) (h : w.Alike a b) : w.left.Stands a b :=
  (hw.left.stands h.left).of_key_eq (hw.right.named h.right) h.key_eq

theorem stands_right (hw : w.Sound) (h : w.Alike a b) : w.right.Stands b b := hw.right.stands h.right

theorem stands_right_all (hw : w.Sound) (h : List.Forall₂ w.Alike as bs) :
    List.Forall₂ w.right.Stands bs bs := by
  refine List.forall₂_same.2 fun b hb => ?_
  obtain ⟨a, -, hab⟩ := exists_mem_left h hb
  exact hw.stands_right hab

/-- Trees that stand for one type are alike. -/
theorem alike (hw : w.Sound) {t : Ty} (ha : w.left.Stands a t) (hb : w.right.Stands b t) :
    w.Alike a b where
  left := hw.left.keeps_of_stands ha
  right := hw.right.keeps_of_stands hb
  key_eq := (hw.left.key_eq ha.lookup?).trans (hw.right.key_eq hb.lookup?).symm

theorem atom (hw : w.Sound) (ha : a ∈ atoms) : w.Alike a a := ⟨hw.left.atom ha, hw.right.atom ha, rfl⟩

/-- Alike types have one outline, and their parts are alike. -/
theorem mirroring (hw : w.Sound) : Mirroring w.Alike where
  key_eq h := h.key_eq
  atom := hw.atom
  mirrors h := by
    refine (mirrors_of_key_eq (hw.left.named h.left) (hw.right.named h.right) h.key_eq).imp ?_
    intro s hs t ht hst
    exact ⟨hw.left.part h.left s hs, hw.right.part h.right t ht, hst⟩

theorem grown (hw : w.Sound) {u u' : Universe} (hu : u.Sound w.left.classes)
    (hu' : u'.Sound w.right.classes) (hleft : w.left.Grows w.left.classes u)
    (hright : w.right.Grows w.right.classes u') : (Twins.mk u u').Sound ∧ w.Grows ⟨u, u'⟩ := by
  have hgrows : w.Grows ⟨u, u'⟩ := ⟨hleft, hright, hu.classes_eq, hu'.classes_eq⟩
  refine ⟨⟨?_, ?_, ?_, ?_, ?_⟩, hgrows⟩
  · rw [hgrows.left_classes]
    exact hu
  · rw [hgrows.right_classes]
    exact hu'
  · rw [hgrows.left_classes]
    exact hw.left_proper
  · rw [hgrows.right_classes]
    exact hw.right_proper
  · rw [hgrows.left_classes, hgrows.right_classes]
    exact hw.classes.imp fun _ _ _ _ _ _ _ _ h => h.grows hgrows

end Sound

/-! ## Computations in both -/

variable {α β γ δ : Type} {x : InUniverse α} {y : InUniverse β} {R : Twins → α → β → Prop}

/-- The universes after a computation in each. -/
def after (w : Twins) (x : InUniverse α) (y : InUniverse β) : Twins := ⟨(x.run w.left).2, (y.run w.right).2⟩

/-- In these universes and in all that come of them, the computations keep both sound and end with related
results. -/
def Agree (w : Twins) (x : InUniverse α) (y : InUniverse β) (R : Twins → α → β → Prop) : Prop :=
  ∀ v : Twins, v.Sound → w.Grows v →
    (v.after x y).Sound ∧ v.Grows (v.after x y) ∧
      R (v.after x y) (x.run v.left).1 (y.run v.right).1

namespace Agree

theorem grows (h : w.Agree x y R) (hwv : w.Grows v) : v.Agree x y R :=
  fun u hu hvu => h u hu (hwv.trans hvu)

theorem of_sound (h : ∀ v : Twins, v.Sound → w.Grows v → v.Agree x y R) : w.Agree x y R :=
  fun v hv hwv => h v hv hwv v hv (.refl v)

theorem pure {a : α} {b : β} (h : ∀ v : Twins, v.Sound → w.Grows v → R v a b) :
    w.Agree (pure a) (pure b) R :=
  fun v hv hwv => ⟨hv, .refl v, h v hv hwv⟩

theorem bind {f : α → InUniverse γ} {g : β → InUniverse δ} {S : Twins → γ → δ → Prop}
    (h : w.Agree x y R)
    (hfg : ∀ (v : Twins) (a : α) (b : β), v.Sound → w.Grows v → R v a b → v.Agree (f a) (g b) S) :
    w.Agree (x >>= f) (y >>= g) S := by
  intro v hv hwv
  obtain ⟨hu, hvu, hR⟩ := h v hv hwv
  obtain ⟨hu', huu', hS⟩ := hfg _ _ _ hu (hwv.trans hvu) hR _ hu (.refl _)
  exact ⟨hu', hvu.trans huu', hS⟩

theorem imp {S : Twins → α → β → Prop} (h : w.Agree x y R)
    (hRS : ∀ (v : Twins) (a : α) (b : β), v.Sound → w.Grows v → R v a b → S v a b) :
    w.Agree x y S := by
  intro v hv hwv
  obtain ⟨hu, hvu, hR⟩ := h v hv hwv
  exact ⟨hu, hvu, hRS _ _ _ hu (hwv.trans hvu) hR⟩

/-- What each of two universes yields alone, both yield together. -/
theorem of_yields {P : Universe → α → Prop} {Q : Universe → β → Prop}
    (hx : w.left.Yields w.left.classes x P) (hy : w.right.Yields w.right.classes y Q)
    (hR : ∀ (v : Twins) (a : α) (b : β), v.Sound → w.Grows v → P v.left a → Q v.right b → R v a b) :
    w.Agree x y R := by
  intro v hv hwv
  obtain ⟨hleft, hleft', hP⟩ := hx v.left (hwv.left_classes ▸ hv.left) hwv.left
  obtain ⟨hright, hright', hQ⟩ := hy v.right (hwv.right_classes ▸ hv.right) hwv.right
  rw [← hwv.left_classes] at hleft hleft'
  rw [← hwv.right_classes] at hright hright'
  obtain ⟨hu, hvu⟩ := hv.grown hleft hright hleft' hright'
  exact ⟨hu, hvu, hR _ _ _ hu (hwv.trans hvu) hP hQ⟩

/-! ### Loops -/

variable {T : γ → δ → Prop} {xs : List γ} {ys : List δ}

theorem mapM {f : γ → InUniverse α} {g : δ → InUniverse β}
    (hmono : ∀ {v u : Twins} {a : α} {b : β}, v.Grows u → R v a b → R u a b)
    (hxs : List.Forall₂ T xs ys) (hfg : ∀ x ∈ xs, ∀ y ∈ ys, T x y → w.Agree (f x) (g y) R) :
    w.Agree (xs.mapM f) (ys.mapM g) fun v => List.Forall₂ (R v) := by
  induction hxs with
  | nil => exact .pure fun _ _ _ => .nil
  | @cons x y xs ys hxy _ ih =>
    rw [List.mapM_cons, List.mapM_cons]
    refine (hfg x (by simp) y (by simp) hxy).bind fun v a b _ hwv hab => ?_
    have hrest := ih fun x hx y hy => hfg x (by simp [hx]) y (by simp [hy])
    refine (hrest.grows hwv).bind fun u as bs _ hvu hs => .pure fun u' _ huu' => ?_
    exact .cons (hmono (hvu.trans huu') hab) (hs.imp fun _ _ h => hmono huu' h)

theorem foldlM {f : α → γ → InUniverse α} {g : β → δ → InUniverse β} {a : α} {b : β}
    (hmono : ∀ {v u : Twins} {a : α} {b : β}, v.Grows u → R v a b → R u a b)
    (hxs : List.Forall₂ T xs ys) (hab : R w a b)
    (hfg : ∀ x ∈ xs, ∀ y ∈ ys, T x y → ∀ (v : Twins) (a : α) (b : β), w.Grows v → R v a b →
      v.Agree (f a x) (g b y) R) :
    w.Agree (xs.foldlM f a) (ys.foldlM g b) R := by
  induction hxs generalizing w a b with
  | nil => exact .pure fun _ _ hwv => hmono hwv hab
  | @cons x y xs ys hxy _ ih =>
    rw [List.foldlM_cons, List.foldlM_cons]
    refine (hfg x (by simp) y (by simp) hxy w a b (.refl w) hab).bind fun v a' b' _ hwv hab' => ?_
    exact ih hab' fun x hx y hy hxy u a b hvu =>
      hfg x (by simp [hx]) y (by simp [hy]) hxy u a b (hwv.trans hvu)

end Agree

/-- Both computations end with the same answer. -/
def Same (w : Twins) (x y : InUniverse α) : Prop := w.Agree x y fun _ a b => a = b

namespace Same

variable {z : InUniverse α}

theorem pure (w : Twins) (a : α) : w.Same (Pure.pure a) (Pure.pure a) := Agree.pure fun _ _ _ => rfl

theorem bind {f : α → InUniverse γ} {g : α → InUniverse δ} {S : Twins → γ → δ → Prop} (h : w.Same x z)
    (hfg : ∀ (v : Twins) (a : α), v.Sound → w.Grows v → v.Agree (f a) (g a) S) :
    w.Agree (x >>= f) (z >>= g) S :=
  Agree.bind h fun v a _ hv hwv hab => hab ▸ hfg v a hv hwv

/-- A test that comes first decides alike between two computations. -/
theorem ite {c d : InUniverse Bool} {y' : InUniverse β} {x' : InUniverse α} (h : w.Same c d)
    (hyes : w.Agree x y R) (hno : w.Agree x' y' R) :
    w.Agree (c >>= fun b => if b = true then x else x') (d >>= fun b => if b = true then y else y') R :=
  h.bind fun v b _ hwv => by
    cases b with
    | true => exact hyes.grows hwv
    | false => exact hno.grows hwv

variable {T : γ → δ → Prop} {xs : List γ} {ys : List δ}

theorem anyM {p : γ → InUniverse Bool} {q : δ → InUniverse Bool} (hxs : List.Forall₂ T xs ys)
    (hpq : ∀ x ∈ xs, ∀ y ∈ ys, T x y → w.Same (p x) (q y)) : w.Same (xs.anyM p) (ys.anyM q) := by
  induction hxs with
  | nil => exact .pure w false
  | @cons x y xs ys hxy _ ih =>
    rw [List.anyM, List.anyM]
    refine (hpq x (by simp) y (by simp) hxy).bind fun v b _ hwv => ?_
    cases b with
    | true => exact Same.pure v true
    | false => exact (ih fun x hx y hy => hpq x (by simp [hx]) y (by simp [hy])).grows hwv

/-- `filterM` collects from the back, so the accumulators are in the statement. -/
theorem filterAuxM {p : γ → InUniverse Bool} {q : δ → InUniverse Bool} (hxs : List.Forall₂ T xs ys)
    (hpq : ∀ x ∈ xs, ∀ y ∈ ys, T x y → w.Same (p x) (q y)) {acc : List γ} {acc' : List δ}
    (hacc : List.Forall₂ T acc acc') :
    w.Agree (xs.filterAuxM p acc) (ys.filterAuxM q acc') fun _ => List.Forall₂ T := by
  induction hxs generalizing w acc acc' with
  | nil => exact .pure fun _ _ _ => hacc
  | @cons x y xs ys hxy _ ih =>
    rw [List.filterAuxM, List.filterAuxM]
    refine (hpq x (by simp) y (by simp) hxy).bind fun v b _ hwv => ?_
    refine ih (fun x hx y hy hxy => (hpq x (by simp [hx]) y (by simp [hy]) hxy).grows hwv) ?_
    cases b with
    | true => exact .cons hxy hacc
    | false => exact hacc

theorem filterM {p : γ → InUniverse Bool} {q : δ → InUniverse Bool} (hxs : List.Forall₂ T xs ys)
    (hpq : ∀ x ∈ xs, ∀ y ∈ ys, T x y → w.Same (p x) (q y)) :
    w.Agree (xs.filterM p) (ys.filterM q) fun _ => List.Forall₂ T := by
  unfold List.filterM
  refine (filterAuxM hxs hpq .nil).bind fun v zs zs' _ _ hzs => .pure fun _ _ _ => ?_
  exact List.rel_reverse hzs

end Same

/-! ## The operations of the store -/

/-- Both computations end with alike types. -/
abbrev AgreeTy (w : Twins) (x y : InUniverse Ty) : Prop := w.Agree x y fun v => v.Alike

/-- Two trees that stand for one type, in the one universe and in the other. -/
theorem agree_of_stands {x y : InUniverse Ty} {t : Ty}
    (hx : w.left.Yields w.left.classes x fun u r => u.Stands r t)
    (hy : w.right.Yields w.right.classes y fun u r => u.Stands r t) : w.AgreeTy x y :=
  .of_yields hx hy fun _ _ _ hv _ ha hb => hv.alike ha hb

theorem agree_self (h : w.Alike a b) : w.AgreeTy (pure a) (pure b) := .pure fun _ _ hwv => h.grows hwv

theorem agree_atom (ha : a ∈ atoms) : w.AgreeTy (pure a) (pure a) := .pure fun _ hv _ => hv.atom ha

theorem agree_literal (l : Literal) : w.AgreeTy (TypeStore.literal l) (TypeStore.literal l) :=
  agree_of_stands (Universe.yields_literal l) (Universe.yields_literal l)

theorem props_right (hw : w.Sound) {ps qs : List (Property Ty)}
    (hps : List.Forall₂ (Property.Mirrors w.Alike) ps qs) :
    List.Forall₂ (Property.Mirrors w.right.Stands) qs qs := by
  refine List.forall₂_same.2 fun q hq => ?_
  obtain ⟨p, -, hpq⟩ := exists_mem_left hps hq
  exact ⟨rfl, hw.stands_right hpq.type, rfl, rfl⟩

theorem agree_object {tag : String} {ps qs : List (Property Ty)} (htag : Text.IsWord tag)
    (hnames : ∀ p ∈ ps, p.name.IsWord) (hps : List.Forall₂ (Property.Mirrors w.Alike) ps qs) :
    w.AgreeTy (TypeStore.object tag ps) (TypeStore.object tag qs) := by
  refine .of_sound fun v hv hwv => ?_
  have hps : List.Forall₂ (Property.Mirrors v.Alike) ps qs :=
    hps.imp fun _ _ h => ⟨h.name, h.type.grows hwv, h.optional, h.readonly⟩
  refine agree_of_stands (Universe.yields_object htag hnames ?_)
    (Universe.yields_object htag (fun q hq => ?_) (props_right hv hps))
  · exact hps.imp fun _ _ h => ⟨h.name, hv.stands_left h.type, h.optional, h.readonly⟩
  · obtain ⟨p, hp, hpq⟩ := exists_mem_left hps hq
    exact hpq.name ▸ hnames p hp

theorem agree_tuple {es fs : List (Elem Ty)} {r s : Option Ty}
    (horder : es.Pairwise fun e f => e.optional = true → f.optional = true)
    (hes : List.Forall₂ (Elem.Mirrors w.Alike) es fs) (hr : Option.Rel w.Alike r s) :
    w.AgreeTy (TypeStore.tuple es r) (TypeStore.tuple fs s) := by
  refine .of_sound fun v hv hwv => ?_
  have horder' : fs.Pairwise fun e f => e.optional = true → f.optional = true := by
    refine Universe.ordered_of_marks ?_ horder
    clear horder
    induction hes with
    | nil => rfl
    | cons h _ ih => rw [List.map_cons, List.map_cons, h.optional, ih]
  refine agree_of_stands (t := .tuple fs s) (Universe.yields_tuple horder ?_ ?_)
    (Universe.yields_tuple horder' ?_ ?_)
  · exact hes.imp fun _ _ h => ⟨hv.stands_left (h.type.grows hwv), h.optional⟩
  · exact optionRel_imp hr fun _ _ h => hv.stands_left (h.grows hwv)
  · refine List.forall₂_same.2 fun f hf => ?_
    obtain ⟨e, -, h⟩ := exists_mem_left hes hf
    exact ⟨hv.stands_right (h.type.grows hwv), rfl⟩
  · cases hr with
    | none => exact .none
    | some h => exact .some (hv.stands_right (h.grows hwv))

theorem agree_function {ps qs : List (Param Ty)} {r s : Ty}
    (hps : List.Forall₂ (Param.Mirrors w.Alike) ps qs) (hr : w.Alike r s) :
    w.AgreeTy (TypeStore.function ps r) (TypeStore.function qs s) := by
  refine .of_sound fun v hv hwv => ?_
  have hr := hr.grows hwv
  refine agree_of_stands (Universe.yields_function ?_ (hv.stands_left hr))
    (Universe.yields_function (List.forall₂_same.2 fun q hq => ?_) (hv.stands_right hr))
  · exact hps.imp fun _ _ h => ⟨hv.stands_left (h.type.grows hwv), h.rest, h.optional⟩
  · obtain ⟨p, -, h⟩ := exists_mem_left hps hq
    exact ⟨hv.stands_right (h.type.grows hwv), rfl, fun _ => rfl⟩

theorem agree_typeVar {name : String} {o o' : Option Ty} (hname : Text.IsWord name)
    (ho : Option.Rel w.Alike o o') :
    w.AgreeTy (TypeStore.typeVar name o) (TypeStore.typeVar name o') := by
  refine .of_sound fun v hv hwv => ?_
  refine agree_of_stands (t := .var name o') (Universe.yields_typeVar hname ?_)
    (Universe.yields_typeVar hname ?_)
  · exact optionRel_imp ho fun _ _ h => hv.stands_left (h.grows hwv)
  · cases ho with
    | none => exact .none
    | some h => exact .some (hv.stands_right (h.grows hwv))

theorem agree_union (h : List.Forall₂ w.Alike as bs) :
    w.AgreeTy (TypeStore.union as) (TypeStore.union bs) := by
  refine .of_sound fun v hv hwv => ?_
  have h := alike_grows h hwv
  exact agree_of_stands (t := v.left.classes.union bs)
    (Universe.yields_union (h.imp fun _ _ h => hv.stands_left h))
    (Universe.yields_union (hv.stands_right_all h))

theorem agree_join {a' b' : Ty} (h : w.Alike a b) (h' : w.Alike a' b') :
    w.AgreeTy (TypeStore.join a a') (TypeStore.join b b') :=
  agree_union (.cons h (.cons h' .nil))

theorem agree_intersect (h : List.Forall₂ w.Alike as bs) :
    w.AgreeTy (TypeStore.intersect as) (TypeStore.intersect bs) := by
  refine .of_sound fun v hv hwv => ?_
  have h := alike_grows h hwv
  have hright := Universe.yields_intersect (h := v.right.classes) (hv.stands_right_all h)
  rw [← Hierarchy.intersect_eq_of_derives hv.derives_eq] at hright
  exact agree_of_stands (Universe.yields_intersect (h.imp fun _ _ h => hv.stands_left h)) hright

theorem agree_meet {a' b' : Ty} (h : w.Alike a b) (h' : w.Alike a' b') :
    w.AgreeTy (TypeStore.meet a a') (TypeStore.meet b b') :=
  agree_intersect (.cons h (.cons h' .nil))

theorem same_subtype {a' b' : Ty} (h : w.Alike a b) (h' : w.Alike a' b') :
    w.Same (TypeStore.subtype a a') (TypeStore.subtype b b') := by
  refine .of_sound fun v hv hwv => ?_
  have h := h.grows hwv
  have h' := h'.grows hwv
  have hleft := Universe.says_subtype (h := v.left.classes) (hv.stands_left h) (hv.stands_left h')
  have hright := Universe.says_subtype (h := v.right.classes) (hv.stands_right h) (hv.stands_right h')
  rw [← Hierarchy.subtype_eq_of_derives hv.derives_eq] at hright
  exact .of_yields hleft hright fun _ _ _ _ _ hx hy => hx.trans hy.symm

theorem agree_propertyOf (h : w.Alike a b) (name : Text) :
    w.Agree (TypeStore.propertyOf a name) (TypeStore.propertyOf b name) fun v =>
      Option.Rel (Property.Mirrors v.Alike) := by
  refine .of_sound fun v hv hwv => ?_
  have h := h.grows hwv
  have hright := Universe.yields_propertyOf (h := v.right.classes) (hv.stands_right h) name
  rw [← Hierarchy.propertyOf_eq_of_derives hv.derives_eq] at hright
  refine .of_yields (Universe.yields_propertyOf (hv.stands_left h) name) hright ?_
  intro u o o' hu _ ho ho'
  generalize v.left.classes.propertyOf b name = found at ho ho'
  cases ho with
  | none =>
    cases ho'
    exact .none
  | some hp =>
    cases ho' with
    | some hq =>
      exact .some ⟨hp.name.trans hq.name.symm, hu.alike hp.type hq.type,
        hp.optional.trans hq.optional.symm, hp.readonly.trans hq.readonly.symm⟩

/-- Both universes name the same classes. -/
theorem agree_hierarchy (w : Twins) :
    w.Agree TypeStore.hierarchy TypeStore.hierarchy fun v h k =>
      h.Mirrors v.Alike k ∧ h.derives = k.derives ∧ h.Proper :=
  fun v hv _ => ⟨hv, .refl v, hv.classes, hv.derives_eq, hv.left_proper⟩

end Twins
end FlowTyping
