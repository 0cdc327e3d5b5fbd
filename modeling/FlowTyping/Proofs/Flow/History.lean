import FlowTyping.Proofs.Flow.Lockstep
import FlowTyping.Proofs.Flow.Written
import FlowTyping.Proofs.Store.Identity

/-!
# What has been done with a universe

A universe keeps the first tree that comes with a key, and it remembers subtype answers. So what was built,
asked and analysed in it before is part of its state. This module says which universes there are, and what
all of them have in common.

* **`Universe.History`** — the universes that come of a new one by calls of its operations, by declarations
  of classes and by passes over other bodies. A declaration of a bare class leaves the memory as it is, and
  may make a remembered answer wrong; such declarations are left out here.
* **`Universe.History.sound`** — they are sound, and their classes are declared in order.
-/

namespace FlowTyping

open Ty

/-! ## Graphs whose types are entries -/

section Self

variable {R : Ty → Ty → Prop}

theorem optionRel_self {α : Type} {R : α → α → Prop} {o : Option α} (h : ∀ x ∈ o, R x x) :
    Option.Rel R o o := by
  cases o with
  | none => exact .none
  | some x => exact .some (h x rfl)

theorem Env.mirrors_self {e : Env} (h : ∀ t ∈ e.types, R t t) : e.Mirrors R e :=
  List.forall₂_same.2 fun _ hb => ⟨rfl, h _ (List.mem_map_of_mem hb)⟩

theorem Value.mirrors_self {x : Value} (h : ∀ t ∈ x.types, R t t) : x.Mirrors R x := by
  cases x with
  | const t => exact .const (h t (by simp [types]))
  | var name => exact .var name
  | field owner prop => exact .field owner prop

theorem Guard.mirrors_self {g : Guard} (h : ∀ t ∈ g.types, R t t) : g.Mirrors R g := by
  cases g with
  | typeOf var tag => exact .typeOf var tag
  | truthy var => exact .truthy var
  | equality op left right =>
    cases right with
    | type t => exact .equality op left (.type (h t (by simp [types])))
    | var name => exact .equality op left (.var name)
  | has prop var => exact .has prop var
  | instanceOf var tag => exact .instanceOf var tag
  | discriminant var prop value => exact .discriminant var prop (h value (by simp [types]))
  | predicate fn position var => exact .predicate fn position var

theorem Op.mirrors_self {x : Op} (h : ∀ t ∈ x.types, R t t) : x.Mirrors R x := by
  have hvalues {o : Option Value} (h : ∀ t ∈ o.toList.flatMap Value.types, R t t) :
      Option.Rel (Value.Mirrors R) o o :=
    optionRel_self fun v hv => v.mirrors_self fun t ht =>
      h t (List.mem_flatMap.2 ⟨v, Option.mem_toList.2 hv, ht⟩)
  cases x with
  | entry => exact .entry
  | assign var value declare ascribed =>
    refine .assign var declare (value.mirrors_self fun t ht => h t ?_) (optionRel_self fun t ht => h t ?_)
    · exact List.mem_append_left _ ht
    · exact List.mem_append_right _ (Option.mem_toList.2 ht)
  | branch guard =>
    cases guard with
    | none => exact .branch .none
    | some g => exact .branch (.some (g.mirrors_self h))
  | merge => exact .merge
  | ret value => exact .ret (hvalues h)
  | throw value => exact .throw (hvalues h)
  | call site =>
    refine .call ⟨rfl, List.forall₂_same.2 fun v hv => v.mirrors_self fun t ht => h t ?_,
      List.forall₂_same.2 fun t ht => h t (List.mem_append_right _ ht), rfl, rfl⟩
    exact List.mem_append_left _ (List.mem_flatMap.2 ⟨v, hv, ht⟩)
  | switch site => exact .switch ⟨rfl, rfl, List.forall₂_same.2 h, rfl⟩
  | exit => exact .exit
  | other kind => exact .other kind

theorem Graph.mirrors_self {g : Graph} (h : ∀ t ∈ g.types, R t t) : g.Mirrors R g where
  name := rfl
  nodes := List.forall₂_same.2 fun n hn => ⟨n.op.mirrors_self fun t ht => h t
    (List.mem_append_right _ (List.mem_flatMap.2 ⟨n, hn, ht⟩)), rfl⟩
  entry := rfl
  exit := rfl
  params := List.forall₂_same.2 fun p hp => by
    have hmem : p.type ∈ g.params.map (·.type) := List.mem_map_of_mem hp
    exact ⟨rfl, h _ (by simp [types, hmem]), rfl, rfl⟩
  returns := optionRel_self fun t ht => h t (by simp [types, Option.mem_def.1 ht])
  declared := Env.mirrors_self fun t ht => h t (by simp [types, ht])

theorem Signature.copies_self {p : Signature} (h : ∀ t ∈ p.types, R t t) : p.Copies R p where
  typeParams := List.forall₂_same.2 fun v hv => h v (by simp [types, hv])
  params := List.forall₂_same.2 fun a ha => by
    have hmem : a.type ∈ p.params.map (·.type) := List.mem_map_of_mem ha
    exact ⟨rfl, h _ (by simp [types, hmem]), rfl, rfl⟩
  ret := h _ (by simp [types])

theorem Surroundings.mirrors_self {s : Surroundings} (h : ∀ t ∈ s.types, R t t) : s.Mirrors R s where
  catalogue := List.forall₂_same.2 fun f hf => by
    have hsig (p : Signature) (hp : p ∈ f.2.signatures ++ [f.2.implementation]) : p.Copies R p :=
      p.copies_self fun t ht => h t
        (List.mem_append_left _ (List.mem_flatMap.2 ⟨f, hf, List.mem_flatMap.2 ⟨p, hp, ht⟩⟩))
    exact ⟨rfl, rfl, List.forall₂_same.2 fun p hp => hsig p (by simp [hp]), hsig _ (by simp)⟩
  preds := List.forall₂_same.2 fun p hp =>
    ⟨rfl, rfl, h _ (List.mem_append_right _ (List.mem_map.2 ⟨p, hp, rfl⟩))⟩

end Self

/-! ## Histories -/

namespace Universe

open FlowTyping.Graph

/-- A pass over a graph, after a number of steps, with the universe that it leaves. -/
def passOver (u : Universe) (g : Graph) (s : Surroundings) (limit n : Nat) : Pass × Universe :=
  (Pass.steps (g.plan s limit) n (Pass.start g) : InUniverse Pass).run u

/-- The universes that come of a new one. Types are entries when they are used, and names are words. A class
that is declared without a shape leaves the memory as it is. Where that makes a remembered answer wrong, the
universe gives wrong answers from then on, so a bare declaration counts only if all that is remembered stays
right. -/
inductive History : Universe → Prop where
  | new (memory : Nat) : History (.new memory)
  | call {u : Universe} (hu : History u) (c : Call) (htypes : ∀ t ∈ c.types, u.Keeps t)
    (hnames : ∀ word ∈ c.names, word.IsWord) : History (c.serve.run u).2
  | bare {u : Universe} {h : Hierarchy} (hu : History u) (name : String) (parents : List String)
    (hname : Text.IsWord name)
    (hdeclare : u.classes.declare { name, parents, shape := none } = .ok h) (hright : u.memory.Right h) :
    History ((InUniverse.declareBare name parents).run u).2
  | pass {u : Universe} (hu : History u) (g : Graph) (s : Surroundings) (limit n : Nat)
    (htypes : ∀ t ∈ g.types ++ s.types, u.Keeps t) :
    History (u.passOver g s limit n).2

variable {u : Universe} {name : String} {parents : List String} {props : List (Property Ty)}

/-- Declaring a class declares that class, or leaves the hierarchy as it is. -/
theorem declareClass_classes :
    ((InUniverse.declareClass name parents props).run u).2.classes = u.classes ∨
      ∃ c : ClassDecl, c.name = name ∧
        u.classes.declare c = .ok ((InUniverse.declareClass name parents props).run u).2.classes := by
  rcases @declareClass_cases u name parents props with ⟨-, -, hclasses⟩ | ⟨shape, -, hdeclare⟩
  · exact .inl hclasses
  · exact .inr ⟨_, rfl, hdeclare⟩

theorem run_declareBare {h : Hierarchy} (hdeclare : u.classes.declare { name, parents, shape := none } = .ok h) :
    ((InUniverse.declareBare name parents).run u).2 = { u with classes := h } := by
  unfold InUniverse.declareBare
  rw [StateT.run_bind, StateT.run_get, pure_bind]
  dsimp only
  rw [hdeclare]
  rfl

theorem declareClass_proper (hu : u.classes.Proper) (hname : Text.IsWord name) :
    ((InUniverse.declareClass name parents props).run u).2.classes.Proper := by
  rcases @declareClass_classes u name parents props with heq | ⟨c, rfl, hdeclare⟩
  · rw [heq]
    exact hu
  · exact hu.declare hname hdeclare

theorem serve_classes {c : Call} (hu : u.Sound u.classes)
    (hclass : ∀ name parents props, c ≠ .declareClass name parents props)
    (htypes : ∀ t ∈ c.types, u.Keeps t) (hnames : ∀ word ∈ c.names, word.IsWord) :
    (c.serve.run u).2.classes = u.classes :=
  (Call.yields_serve (serving_sound _) hclass htypes hnames u hu (.refl _ u)).1.classes_eq

theorem classes_of_serve_declareClass :
    ((Call.serve (.declareClass name parents props)).run u).2 =
      ((InUniverse.declareClass name parents props).run u).2 := by
  rw [Call.serve, StateT.run_bind]
  rcases (InUniverse.declareClass name parents props).run u with ⟨_ | _, v⟩ <;> rfl

/-- A sound universe beside itself. -/
theorem Sound.twins (hu : u.Sound u.classes) (hproper : u.classes.Proper) : (Twins.mk u u).Sound where
  left := hu
  right := hu
  left_proper := hproper
  right_proper := hproper
  classes name := by
    refine optionRel_self fun c hc => ⟨rfl, rfl, optionRel_self fun t ht => ?_⟩
    have hkept := hu.shape c (List.mem_of_find?_eq_some hc) t ht
    exact ⟨hkept, hkept, rfl⟩

/-- A pass keeps a universe sound because it keeps it sound beside itself. -/
theorem Sound.passOver {g : Graph} {s : Surroundings} {limit n : Nat} (hu : u.Sound u.classes)
    (hproper : u.classes.Proper) (htypes : ∀ t ∈ g.types ++ s.types, u.Keeps t) :
    (u.passOver g s limit n).2.Sound u.classes ∧ u.Grows u.classes (u.passOver g s limit n).2 := by
  have hself (t) (ht : t ∈ g.types ++ s.types) : (Twins.mk u u).Alike t t := ⟨htypes t ht, htypes t ht, rfl⟩
  have hg := g.mirrors_self fun t ht => hself t (List.mem_append_left _ ht)
  have hs := s.mirrors_self fun t ht => hself t (List.mem_append_right _ ht)
  obtain ⟨hafter, hgrows, -⟩ := Twins.agree_steps (hg.plan_rel hs limit) (.start hg) n _ (hu.twins hproper) (.refl _)
  exact ⟨hgrows.left_classes ▸ hafter.left, hgrows.left⟩

/-- **Whatever has been done with a universe, it is sound, and its classes are declared in order.** -/
theorem History.sound (hu : u.History) : u.Sound u.classes ∧ u.classes.Proper := by
  induction hu with
  | new memory => exact ⟨sound_new memory, trivial, by simp [Universe.new]⟩
  | @call u _ c htypes hnames ih =>
    obtain ⟨hsound, hproper⟩ := ih
    obtain ⟨h, hv, -, -⟩ := Call.serve_sound hsound htypes hnames
    refine ⟨hv.classes_eq ▸ hv, ?_⟩
    -- declaring a class is the only call that changes the hierarchy
    by_cases hclass : ∃ name parents props, c = .declareClass name parents props
    · obtain ⟨name, parents, props, rfl⟩ := hclass
      rw [classes_of_serve_declareClass]
      exact declareClass_proper hproper (hnames name (by simp [Call.names]))
    · rw [serve_classes hsound (fun name parents props heq => hclass ⟨name, parents, props, heq⟩) htypes
        hnames]
      exact hproper
  | @bare u h _ name parents hname hdeclare hright ih =>
    obtain ⟨hsound, hproper⟩ := ih
    -- nothing is interned, and a class without a shape brings no type along
    rw [run_declareBare hdeclare]
    exact ⟨hsound.declare hdeclare (by simp) hright, hproper.declare hname hdeclare⟩
  | @pass u _ g s limit n htypes ih =>
    obtain ⟨hsound, hproper⟩ := ih
    have hafter := (@Sound.passOver u g s limit n hsound hproper htypes).1
    exact ⟨hafter.classes_eq ▸ hafter, hafter.classes_eq ▸ hproper⟩

end Universe
end FlowTyping
