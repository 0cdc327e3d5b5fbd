import FlowTyping.Proofs.Flow.History
import FlowTyping.Proofs.Store.Effects
import FlowTyping.Proofs.Ty.Lucid

/-!
# Universes that differ in their memories

What a universe remembers decides which questions it has to work out, and so which types it meets on the way.
Two universes that were asked the same and remember differently therefore keep different tables. They still
answer alike: a type is settled by its key but for the names of function parameters, and the functions in a
table are those that were asked for (`FlowTyping.Proofs.Store.Effects`).

* **`Universe.Matched`** — sound universes with the same classes and the same functions, and
  **`Matched.eq_of_key_eq`** — they keep the same tree for a key that both have.
* **`Universe.RunsAlike`** — a computation has one result in both and leaves them matched;
  **`RunsAlike.of_modest`** for questions that the plain meaning of the operations settles.
* **`Matched.object`**, **`Matched.function`**, **`Matched.propertyOf`**, **`Matched.declare`**,
  **`Matched.declareClass`** — the operations that need a word of their own.
-/

namespace FlowTyping

open Ty

namespace Universe

variable {α β : Type} {u v : Universe} {a b t : Ty}

/-! ## Universes that differ in their memories -/

/-- Two sound universes with the same classes and the same functions. They may have met different types. -/
structure Matched (u v : Universe) : Prop where
  left : u.Sound u.classes
  right : v.Sound v.classes
  classes : u.classes = v.classes
  functions : ∀ {k : Text} {t : Ty}, t.isFunction = true → (u.lookup? k = some t ↔ v.lookup? k = some t)

namespace Matched

/-- They keep the same tree for a key that both have. -/
theorem eq_of_key_eq (hm : Matched u v) (ha : u.Keeps a) (hb : v.Keeps b) (hk : a.key = b.key) : a = b := by
  induction a using parts_induction generalizing b with
  | step a ih =>
    by_cases hf : a.isFunction = true
    · have ha' := (hm.functions hf).1 ha
      rw [hk, hb] at ha'
      exact (Option.some.inj ha').symm
    · refine eq_of_mirrors ?_ (by simpa using hf)
      refine (mirrors_of_key_eq (hm.left.named ha) (hm.right.named hb) hk).imp fun s hs t ht hst => ?_
      exact ih s hs (hm.left.part ha s hs) (hm.right.part hb t ht) hst

theorem eq_of_stands (hm : Matched u v) {s : Ty} (ha : u.Stands a s) (hb : v.Stands b s) : a = b :=
  hm.eq_of_key_eq (hm.left.keeps_of_stands ha) (hm.right.keeps_of_stands hb)
    ((hm.left.key_eq ha.lookup?).trans (hm.right.key_eq hb.lookup?).symm)

end Matched

/-- In both universes a computation has one result, and leaves them matched. Entries stay, and the types in the
result are entries. -/
structure RunsAlike (u v : Universe) (types : α → List Ty) (x : InUniverse α) : Prop where
  same : (x.run u).1 = (x.run v).1
  matched : Matched (x.run u).2 (x.run v).2
  left : ∀ t, u.Keeps t ∨ t ∈ types (x.run u).1 → (x.run u).2.Keeps t
  right : ∀ t, v.Keeps t ∨ t ∈ types (x.run v).1 → (x.run v).2.Keeps t

namespace RunsAlike

variable {types : α → List Ty} {x : InUniverse α}

theorem map {types' : β → List Ty} (hx : RunsAlike u v types x) (f : α → β)
    (hf : ∀ a, types' (f a) ⊆ types a) : RunsAlike u v types' (do return f (← x)) where
  same := congrArg f hx.same
  matched := hx.matched
  left t ht := hx.left t (ht.imp id fun ht => hf _ ht)
  right t ht := hx.right t (ht.imp id fun ht => hf _ ht)

theorem pure (hm : Matched u v) {a : α} (ha : types a = []) : RunsAlike u v types (Pure.pure a) :=
  ⟨rfl, hm, fun _ ht => ht.elim id fun ht => absurd (ha ▸ ht) (by simp),
    fun _ ht => ht.elim id fun ht => absurd (ha ▸ ht) (by simp)⟩

theorem of_run {r : α} {u' v' : Universe} (hu : x.run u = (r, u')) (hv : x.run v = (r, v')) (hm : Matched u' v')
    (hl : ∀ t, u.Keeps t ∨ t ∈ types r → u'.Keeps t) (hr : ∀ t, v.Keeps t ∨ t ∈ types r → v'.Keeps t) :
    RunsAlike u v types x where
  same := by rw [hu, hv]
  matched := by rwa [hu, hv]
  left := by rwa [hu]
  right := by rwa [hv]

/-- What a computation yields in both universes, which are left with the same functions. -/
theorem of_yields (hm : Matched u v) {Q Q' : Universe → α → Prop} (hl : u.Yields u.classes x Q)
    (hr : v.Yields v.classes x Q')
    (hfunctions : ∀ {k : Text} {t : Ty}, t.isFunction = true →
      ((x.run u).2.lookup? k = some t ↔ (x.run v).2.lookup? k = some t))
    (hQ : ∀ {u v : Universe} {a b : α}, Matched u v → Q u a → Q' v b →
      a = b ∧ ∀ t ∈ types a, u.Keeps t ∧ v.Keeps t) : RunsAlike u v types x := by
  obtain ⟨hu, hgu, hqu⟩ := hl u hm.left (.refl _ u)
  obtain ⟨hv, hgv, hqv⟩ := hr v hm.right (.refl _ v)
  have hafter : Matched (x.run u).2 (x.run v).2 := by
    refine ⟨hu.classes_eq.symm ▸ hu, hv.classes_eq.symm ▸ hv, ?_, hfunctions⟩
    rw [hu.classes_eq, hv.classes_eq, hm.classes]
  obtain ⟨hsame, hkept⟩ := hQ hafter hqu hqv
  refine ⟨hsame, hafter, fun t ht => ?_, fun t ht => ?_⟩
  · exact ht.elim hgu.keeps fun ht => (hkept t ht).1
  · exact ht.elim hgv.keeps fun ht => (hkept t (hsame ▸ ht)).2

/-- Questions leave the functions as they are. -/
theorem of_modest (hm : Matched u v) (hx : Modest x) {Q Q' : Universe → α → Prop}
    (hl : u.Yields u.classes x Q) (hr : v.Yields v.classes x Q')
    (hQ : ∀ {u v : Universe} {a b : α}, Matched u v → Q u a → Q' v b →
      a = b ∧ ∀ t ∈ types a, u.Keeps t ∧ v.Keeps t) : RunsAlike u v types x :=
  of_yields hm hl hr (fun ht => by
    rw [(hx u).lookup?_function ht, (hx v).lookup?_function ht, hm.functions ht]) hQ

/-- A question for a type. -/
theorem type {x : InUniverse Ty} (hm : Matched u v) (hx : Modest x)
    (hl : u.Yields u.classes x fun w r => w.Stands r t) (hr : v.Yields v.classes x fun w r => w.Stands r t) :
    RunsAlike u v (fun s => [s]) x := by
  refine of_modest hm hx hl hr fun {u v a b} hm ha hb => ?_
  obtain rfl := hm.eq_of_stands ha hb
  exact ⟨rfl, by simpa using ⟨hm.left.keeps_of_stands ha, hm.right.keeps_of_stands hb⟩⟩

/-- A question for a verdict. -/
theorem verdict {x : InUniverse Bool} {yes : Bool} (hm : Matched u v) (hx : Modest x)
    (hl : u.Says u.classes x yes) (hr : v.Says v.classes x yes) : RunsAlike u v (fun _ => []) x :=
  of_modest hm hx hl hr fun _ ha hb => ⟨ha.trans hb.symm, by simp⟩

end RunsAlike

/-! ## Shapes and functions -/

theorem Sound.yields_object {h : Hierarchy} (hu : u.Sound h) {tag : String} {props : List (Property Ty)}
    (htag : Text.IsWord tag) (hnames : ∀ p ∈ props, p.name.IsWord) (hprops : ∀ p ∈ props, u.Keeps p.type) :
    u.Yields h (TypeStore.object tag props) fun w r => w.Stands r (.object tag (TypeStore.sortProps props)) :=
  Universe.yields_object htag hnames (List.forall₂_same.2 fun p hp => ⟨rfl, hu.stands (hprops p hp), rfl, rfl⟩)

theorem Sound.yields_tuple {h : Hierarchy} (hu : u.Sound h) {elems : List (Elem Ty)} {rest : Option Ty}
    (horder : elems.Pairwise fun e f => e.optional = true → f.optional = true)
    (helems : ∀ e ∈ elems, u.Keeps e.type) (hrest : ∀ t ∈ rest, u.Keeps t) :
    u.Yields h (TypeStore.tuple elems rest) fun w r => w.Stands r (.tuple elems rest) :=
  Universe.yields_tuple horder (List.forall₂_same.2 fun e he => ⟨hu.stands (helems e he), rfl⟩)
    (hu.stands_option hrest)

theorem Sound.yields_function {h : Hierarchy} (hu : u.Sound h) {params : List (Param Ty)} {ret : Ty}
    (hparams : ∀ p ∈ params, u.Keeps p.type) (hret : u.Keeps ret) :
    u.Yields h (TypeStore.function params ret) fun w r => w.Stands r (.function params ret) :=
  Universe.yields_function (List.forall₂_same.2 fun p hp => ⟨hu.stands (hparams p hp), rfl, fun _ => rfl⟩)
    (hu.stands hret)

namespace Matched

theorem object (hm : Matched u v) {tag : String} {props : List (Property Ty)} (htag : Text.IsWord tag)
    (hnames : ∀ p ∈ props, p.name.IsWord) (hprops : ∀ p ∈ props, u.Keeps p.type ∧ v.Keeps p.type) :
    RunsAlike u v (fun t => [t]) (TypeStore.object tag props) :=
  .type hm (.intern rfl) (hm.left.yields_object htag hnames fun p hp => (hprops p hp).1)
    (hm.right.yields_object htag hnames fun p hp => (hprops p hp).2)

theorem propertyOf (hm : Matched u v) (ht : u.Keeps t ∧ v.Keeps t) (name : Text) :
    RunsAlike u v (fun found => found.toList.map (·.type)) (TypeStore.propertyOf t name) := by
  have hright : v.Yields v.classes (TypeStore.propertyOf t name) fun w found =>
      Option.Rel (Property.Mirrors w.Stands) found (u.classes.propertyOf t name) := by
    rw [hm.classes]
    exact yields_propertyOf (hm.right.stands ht.2) name
  refine .of_modest hm (TypeStore.modest_propertyOf t name) (yields_propertyOf (hm.left.stands ht.1) name)
    hright fun {u' v' a b} hm ha hb => ?_
  generalize u.classes.propertyOf t name = found at ha hb
  cases ha with
  | none =>
    cases hb
    exact ⟨rfl, by simp⟩
  | @some p r hp =>
    cases hb with
    | @some q _ hq =>
      have htype := hm.eq_of_stands hp.type hq.type
      have hsame : p = q := by
        cases p
        cases q
        congr 1
        · exact hp.name.trans hq.name.symm
        · exact hp.optional.trans hq.optional.symm
        · exact hp.readonly.trans hq.readonly.symm
      subst hsame
      refine ⟨rfl, ?_⟩
      simpa using ⟨hm.left.keeps_of_stands hp.type, hm.right.keeps_of_stands hq.type⟩

/-- Under the key of a function both universes keep the same. -/
theorem lookup?_eq (hm : Matched u v) (ht : Named t) (hf : t.isFunction = true) :
    u.lookup? t.key = v.lookup? t.key := by
  -- what is kept there is a function, as the key says
  have hkept {w : Universe} (hw : w.Sound w.classes) {s : Ty} (hs : w.lookup? t.key = some s) :
      s.isFunction = true := by
    have hkeeps := hw.keeps_of_stands ⟨hs, ht⟩
    cases t <;> simp [isFunction] at hf
    cases mirrors_of_key_eq (hw.named hkeeps) ht (hw.key_eq hs) <;> rfl
  ext s
  exact ⟨fun hs => (hm.functions (hkept hm.left hs)).1 hs, fun hs => (hm.functions (hkept hm.right hs)).2 hs⟩

theorem function (hm : Matched u v) {params : List (Param Ty)} {ret : Ty}
    (hparams : ∀ p ∈ params, u.Keeps p.type ∧ v.Keeps p.type) (hret : u.Keeps ret ∧ v.Keeps ret) :
    RunsAlike u v (fun t => [t]) (TypeStore.function params ret) := by
  have hyields := hm.left.yields_function (fun p hp => (hparams p hp).1) hret.1
  have hyields' := hm.right.yields_function (fun p hp => (hparams p hp).2) hret.2
  refine .of_yields hm hyields hyields' (fun {k t} ht => ?_) fun hm ha hb => ?_
  · have hnamed : Named (.function params ret) := by
      refine .intro trivial fun s hs => ?_
      rcases List.mem_append.1 hs with hs | hs
      · obtain ⟨p, hp, rfl⟩ := List.mem_map.1 hs
        exact hm.left.named (hparams p hp).1
      · obtain rfl := List.mem_singleton.1 hs
        exact hm.left.named hret.1
    have hsame := hm.lookup?_eq hnamed rfl
    show (u.intern _).2.lookup? k = some t ↔ (v.intern _).2.lookup? k = some t
    cases hkept : u.lookup? (Ty.function params ret).key with
    | some kept =>
      rw [hkept] at hsame
      simp only [Universe.intern, show u.table[_]? = _ from hkept, show v.table[_]? = _ from hsame.symm]
      exact hm.functions ht
    | none =>
      rw [hkept] at hsame
      simp only [Universe.intern, show u.table[_]? = _ from hkept, show v.table[_]? = _ from hsame.symm]
      rw [lookup?_insert hkept, lookup?_insert hsame.symm, hm.functions ht]
  · obtain rfl := hm.eq_of_stands ha hb
    exact ⟨rfl, by simpa using ⟨hm.left.keeps_of_stands ha, hm.right.keeps_of_stands hb⟩⟩

end Matched

/-! ## Declarations -/

/-- Adds a class to the hierarchy, with or without a shape. -/
def declare (c : ClassDecl) : InUniverse (Except ClassError Unit) := do
  let u ← get
  match u.classes.declare c with
  | .ok classes => set { u with classes }; return .ok ()
  | .error e => return .error e

theorem declare_bare (name : String) (parents : List String) :
    declare { name, parents, shape := none } = InUniverse.declareBare name parents := rfl

theorem run_declare (c : ClassDecl) (u : Universe) :
    (declare c).run u = match u.classes.declare c with
      | .ok classes => (.ok (), { u with classes })
      | .error e => (.error e, u) := by
  show (match u.classes.declare c with
    | .ok classes => _
    | .error e => _ : InUniverse (Except ClassError Unit)).run u = _
  cases u.classes.declare c <;> rfl

namespace Matched

/-- Matched universes take up a class alike. -/
theorem adopt (hm : Matched u v) {c : ClassDecl} {h : Hierarchy} (hdeclare : u.classes.declare c = .ok h)
    (hshape : ∀ t ∈ c.shape, u.Keeps t ∧ v.Keeps t) {memory memory' : Memory} (hright : memory.Right h)
    (hright' : memory'.Right h) :
    Matched { u with classes := h, memory } { v with classes := h, memory := memory' } where
  left := hm.left.declare hdeclare (fun t ht => (hshape t ht).1) hright
  right := hm.right.declare (hm.classes ▸ hdeclare) (fun t ht => (hshape t ht).2) hright'
  classes := rfl
  functions := hm.functions

theorem declare (hm : Matched u v) {c : ClassDecl} (hshape : ∀ t ∈ c.shape, u.Keeps t ∧ v.Keeps t)
    (hright : ∀ h, u.classes.declare c = .ok h → u.memory.Right h ∧ v.memory.Right h) :
    RunsAlike u v (fun _ => []) (declare c) := by
  have hleft := run_declare c u
  have hright' := run_declare c v
  rw [← hm.classes] at hright'
  cases hdeclare : u.classes.declare c with
  | error e =>
    rw [hdeclare] at hleft hright'
    exact .of_run hleft hright' hm (by simp) (by simp)
  | ok h =>
    obtain ⟨hu, hv⟩ := hright h hdeclare
    rw [hdeclare] at hleft hright'
    exact .of_run hleft hright' (hm.adopt hdeclare hshape hu hv) (fun t ht => ht.elim id (by simp))
      fun t ht => ht.elim id (by simp)

/-- A class that is declared with a shape empties the memories. -/
theorem declareClass (hm : Matched u v) {name : String} {parents : List String} {props : List (Property Ty)}
    (hname : Text.IsWord name) (hnames : ∀ p ∈ props, p.name.IsWord)
    (hprops : ∀ p ∈ props, u.Keeps p.type ∧ v.Keeps p.type) :
    RunsAlike u v (fun made => made.toOption.toList) (InUniverse.declareClass name parents props) := by
  have hleft := @run_declareClass u name parents props
  have hright := @run_declareClass v name parents props
  rw [← hm.classes] at hright
  cases hinherited : InUniverse.inherited u.classes name parents with
  | error e =>
    rw [hinherited] at hleft hright
    exact .of_run hleft hright hm (by simp [Except.toOption]) (by simp [Except.toOption])
  | ok above =>
    rw [hinherited] at hleft hright
    have habove := Regime.keeps_inherited (R := .sound _) hm.left hinherited
    have habove' := Regime.keeps_inherited (R := .sound _) hm.right (hm.classes ▸ hinherited)
    -- the shape is made alike, with what it inherits
    have hobject : RunsAlike u v (fun t => [t]) (TypeStore.object name (above ++ props)) := by
      refine hm.object hname (fun p hp => ?_) fun p hp => ?_
      · exact (List.mem_append.1 hp).elim (fun hp => (habove p hp).2) (hnames p)
      · exact (List.mem_append.1 hp).elim (fun hp => ⟨(habove p hp).1, (habove' p hp).1⟩) (hprops p)
    obtain ⟨hsame, hm', hl, hr⟩ := hobject
    dsimp only at hleft hright
    generalize (TypeStore.object name (above ++ props) : InUniverse Ty).run u = made,
      (TypeStore.object name (above ++ props) : InUniverse Ty).run v = made' at hleft hright hsame hm' hl hr
    obtain ⟨shape, u'⟩ := made
    obtain ⟨shape', v'⟩ := made'
    dsimp only at hleft hright hsame hm' hl hr
    subst hsame
    rw [← hm'.classes] at hright
    cases hdeclare : u'.classes.declare { name, parents, shape := some shape } with
    | error e =>
      rw [hdeclare] at hleft hright
      exact .of_run hleft hright hm' (by simpa [Except.toOption] using fun t ht => hl t (.inl ht))
        (by simpa [Except.toOption] using fun t ht => hr t (.inl ht))
    | ok h =>
      rw [hdeclare] at hleft hright
      have hshape : ∀ t ∈ some shape, u'.Keeps t ∧ v'.Keeps t := by
        simpa using ⟨hl shape (.inr (by simp)), hr shape (.inr (by simp))⟩
      -- both memories are empty after a class was declared
      exact .of_run hleft hright
        (hm'.adopt hdeclare hshape (Memory.right_of_empty _) (Memory.right_of_empty _))
        hl hr

end Matched
end Universe
end FlowTyping
