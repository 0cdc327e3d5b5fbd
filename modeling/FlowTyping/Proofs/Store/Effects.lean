import FlowTyping.Proofs.Store.Ideal
import FlowTyping.Ty.Printer

/-!
# What a question does to a universe

A question about types may keep new types and use the memory, and that is all. The types that it keeps are
literals, shapes, unions and intersections, which the rules put together; a function is only kept where one is
made. So two universes that were asked different questions keep the same trees of functions.

* **`Universe.Moves`** — a universe and what may come of it, one step after the other.
* **`Universe.Modest`** — a computation that only moves the universe; **`Modest.bind`** follows it step by step.
* **`Rules.modest_upTo`** — the rules are modest, one lemma for each of them.
* **`Universe.Moves.lookup?_function`** — the functions in the table stay as they are, and
  **`Universe.Moves.memory_off`**, that a memory that is off stays empty.
-/

namespace FlowTyping

namespace Universe

variable {α β : Type} {u v w : Universe}

/-- What a question may do to a universe. -/
inductive Moves : Universe → Universe → Prop where
  | refl (u : Universe) : Moves u u
  | intern {u v : Universe} (t : Ty) (ht : t.isFunction = false) (h : Moves (u.intern t).2 v) : Moves u v
  | consult {u v : Universe} (question : Text × Text) (hon : u.memory.capacity ≠ 0)
    (h : Moves { u with memory := (u.memory.answered? question).2 } v) : Moves u v
  | remember {u v : Universe} (question : Text × Text) (answer : Bool)
    (h : Moves { u with memory := u.memory.remember question answer } v) : Moves u v
  | mark {u v : Universe} (spent : Bool) (h : Moves { u with spent } v) : Moves u v

theorem Moves.trans (huv : Moves u v) (hvw : Moves v w) : Moves u w := by
  induction huv with
  | refl => exact hvw
  | intern t ht _ ih => exact .intern t ht (ih hvw)
  | consult question hon _ ih => exact .consult question hon (ih hvw)
  | remember question answer _ ih => exact .remember question answer (ih hvw)
  | mark spent _ ih => exact .mark spent (ih hvw)

/-- The computation only moves the universe. -/
def Modest (x : InUniverse α) : Prop := ∀ u : Universe, Moves u (x.run u).2

namespace Modest

variable {x y : InUniverse α}

theorem pure (a : α) : Modest (Pure.pure a : InUniverse α) := .refl

theorem bind {f : α → InUniverse β} (hx : Modest x) (hf : ∀ a, Modest (f a)) : Modest (x >>= f) :=
  fun u => (hx u).trans (hf _ _)

theorem ite {c : Prop} [Decidable c] (hx : Modest x) (hy : Modest y) : Modest (if c then x else y) := by
  split
  · exact hx
  · exact hy

theorem mapM {f : α → InUniverse β} {xs : List α} (hf : ∀ x ∈ xs, Modest (f x)) : Modest (xs.mapM f) := by
  induction xs with
  | nil => exact .pure []
  | cons x xs ih =>
    rw [List.mapM_cons]
    refine .bind (hf x (by simp)) fun _ => .bind (ih fun y hy => hf y (by simp [hy])) fun _ => .pure _

theorem anyM {p : α → InUniverse Bool} {xs : List α} (hp : ∀ x ∈ xs, Modest (p x)) : Modest (xs.anyM p) := by
  induction xs with
  | nil => exact .pure false
  | cons x xs ih =>
    rw [List.anyM]
    refine .bind (hp x (by simp)) fun b => ?_
    cases b with
    | true => exact .pure true
    | false => exact ih fun y hy => hp y (by simp [hy])

theorem allM {p : α → InUniverse Bool} {xs : List α} (hp : ∀ x ∈ xs, Modest (p x)) : Modest (xs.allM p) := by
  induction xs with
  | nil => exact .pure true
  | cons x xs ih =>
    rw [List.allM]
    refine .bind (hp x (by simp)) fun b => ?_
    cases b with
    | true => exact ih fun y hy => hp y (by simp [hy])
    | false => exact .pure false

theorem intern {t : Ty} (ht : t.isFunction = false) : Modest (TypeStore.intern t) :=
  fun _ => .intern t ht (.refl _)

theorem hierarchy : Modest TypeStore.hierarchy := .refl

theorem answered? (question : Text × Text) : Modest (TypeStore.answered? question) := by
  intro u
  by_cases hoff : u.memory.capacity = 0
  · have hrun : ((TypeStore.answered? question : InUniverse _).run u).2 = u := by
      show (if u.memory.capacity = 0 then (none, u) else _ : Option Bool × Universe).2 = u
      rw [if_pos hoff]
    rw [hrun]
    exact .refl u
  · have hrun : ((TypeStore.answered? question : InUniverse _).run u).2 =
        { u with memory := (u.memory.answered? question).2 } := by
      show (if u.memory.capacity = 0 then (none, u) else _ : Option Bool × Universe).2 = _
      rw [if_neg hoff]
      rfl
    rw [hrun]
    exact .consult question hoff (.refl _)

theorem remember (question : Text × Text) (answer : Bool) : Modest (TypeStore.remember question answer) :=
  fun _ => .remember question answer (.refl _)

theorem giveUp : Modest TypeStore.giveUp := fun _ => .mark true (.refl _)

/-- A question moves the universe or leaves it as it is. -/
theorem bounded {a : α} (hx : Modest x) : Modest (TypeStore.bounded a x) := by
  intro u
  rw [run_bounded]
  split
  · exact .refl u
  · exact .mark false ((hx _).trans (.mark u.spent (.refl _)))

end Modest

/-! ## What stays -/

namespace Moves

/-- The functions in the table stay as they are. -/
theorem lookup?_function (h : Moves u v) {k : Text} {t : Ty} (ht : t.isFunction = true) :
    v.lookup? k = some t ↔ u.lookup? k = some t := by
  induction h with
  | refl => rfl
  | @intern u _ s hs _ ih =>
    rw [ih, Universe.intern]
    cases hkept : u.table[s.key]? with
    | some kept => rfl
    | none =>
      show (u.table.insert s.key s)[k]? = some t ↔ u.table[k]? = some t
      rw [Std.HashMap.getElem?_insert]
      by_cases hk : s.key = k
      · subst hk
        have hne : s ≠ t := by
          rintro rfl
          simp [hs] at ht
        simp [hkept, hne]
      · simp [hk]
  | consult _ _ _ ih => exact ih
  | remember _ _ _ ih => exact ih
  | mark _ _ ih => exact ih

/-- A memory that is off stays as it is. -/
theorem memory_off (h : Moves u v) (hoff : u.memory.capacity = 0) : v.memory = u.memory := by
  induction h with
  | refl => rfl
  | @intern u _ t _ _ ih =>
    have hsame : (u.intern t).2.memory = u.memory := by
      rw [Universe.intern]
      split <;> rfl
    rw [ih (hsame ▸ hoff), hsame]
  | consult _ hon _ _ => exact absurd hoff hon
  | @remember u _ question answer _ ih =>
    have hsame : u.memory.remember question answer = u.memory := by
      rw [Memory.remember, if_pos hoff]
    exact (ih (by rw [hsame]; exact hoff)).trans hsame
  | mark _ _ ih => exact ih hoff

end Moves
end Universe

/-! ## The rules -/

open Universe

theorem TypeStore.modest_literal (l : Literal) : Modest (TypeStore.literal l) := .intern rfl

theorem TypeStore.modest_union (ts : List Ty) : Modest (TypeStore.union ts) := by
  rw [TypeStore.union]
  cases Ty.alternativesAll ts with
  | none => exact .pure _
  | some flat =>
    refine .bind (modest_literal _) fun _ => .bind (modest_literal _) fun _ => ?_
    match Ty.dropAbsorbed (Ty.addBoolean (Ty.dedup flat)) with
    | [] => exact .pure _
    | [_] => exact .pure _
    | _ :: _ :: _ => exact .intern rfl

namespace Rules

/-- Answers that only move the universe. -/
structure Modest (r : Rules InUniverse) : Prop where
  subtype : ∀ a b, Universe.Modest (r.subtype a b)
  disjoint : ∀ a b, Universe.Modest (r.disjoint a b)
  propertyOf : ∀ t name, Universe.Modest (r.propertyOf t name)
  intersect : ∀ ts, Universe.Modest (r.intersect ts)

namespace Modest

variable {r : Rules InUniverse} (hr : r.Modest)

include hr

/-! ### Subtyping -/

theorem propsSubtype (a : Ty) (props : List (Property Ty)) : Universe.Modest (Rules.propsSubtype r a props) := by
  induction props with
  | nil => exact .pure _
  | cons pb rest ih =>
    rw [Rules.propsSubtype]
    refine .bind (hr.propertyOf _ _) fun found => ?_
    cases found with
    | none => exact .ite ih (.pure _)
    | some pa =>
      exact .ite (.pure _) (.ite (.pure _) (.bind (hr.subtype _ _) fun _ => .ite ih (.pure _)))

theorem objectSubtype (a : Ty) (tag : String) (props : List (Property Ty)) :
    Universe.Modest (Rules.objectSubtype r a tag props) := by
  have hprops := hr.propsSubtype a props
  cases a with
  | null | undefined => exact .pure _
  | _ => exact .ite hprops (.bind .hierarchy fun _ => .ite hprops (.pure _))

theorem elemsSubtype (restA restB : Option Ty) (elemsA elemsB : List (Elem Ty)) :
    Universe.Modest (Rules.elemsSubtype r restA restB elemsA elemsB) := by
  induction elemsA generalizing elemsB with
  | nil =>
    induction elemsB with
    | nil =>
      rw [Rules.elemsSubtype.eq_def]
      cases restA with
      | none => exact .pure _
      | some ra =>
        cases restB with
        | none => exact .pure _
        | some rb => exact hr.subtype _ _
    | cons eb bs ih =>
      rw [Rules.elemsSubtype.eq_def]
      refine .ite (.pure _) ?_
      cases restA with
      | none => exact ih
      | some ra => exact .bind (hr.subtype _ _) fun _ => .ite ih (.pure _)
  | cons ea as ih =>
    cases elemsB with
    | nil =>
      rw [Rules.elemsSubtype.eq_def]
      cases restB with
      | none => exact .pure _
      | some rb => exact .bind (hr.subtype _ _) fun _ => .ite (ih []) (.pure _)
    | cons eb bs =>
      rw [Rules.elemsSubtype.eq_def]
      exact .ite (.pure _) (.bind (hr.subtype _ _) fun _ => .ite (ih bs) (.pure _))

theorem paramsSubtype (paramsA paramsB : List (Param Ty)) :
    Universe.Modest (Rules.paramsSubtype r paramsA paramsB) := by
  induction paramsA generalizing paramsB with
  | nil => exact .pure _
  | cons pa as ih =>
    cases paramsB with
    | nil => exact .pure _
    | cons pb bs => exact .bind (hr.subtype _ _) fun _ => .ite (ih bs) (.pure _)

theorem functionSubtype (paramsA : List (Param Ty)) (retA : Ty) (paramsB : List (Param Ty)) (retB : Ty) :
    Universe.Modest (Rules.functionSubtype r paramsA retA paramsB retB) :=
  .ite (.pure _) (.bind (hr.paramsSubtype _ _) fun _ => .ite (.ite (.pure _) (hr.subtype _ _)) (.pure _))

theorem plainSubtype (a b : Ty) : Universe.Modest (Rules.plainSubtype r a b) := by
  rw [Rules.plainSubtype.eq_def]
  split
  · exact hr.objectSubtype _ _ _
  · exact hr.elemsSubtype _ _ _ _
  · exact hr.functionSubtype _ _ _ _
  all_goals exact .pure _

theorem rightSubtype (a b : Ty) : Universe.Modest (Rules.rightSubtype r a b) := by
  rw [Rules.rightSubtype.eq_def]
  split
  · exact .bind (.anyM fun _ _ => hr.subtype _ _) fun _ => .ite (.pure _) (.anyM fun _ _ => hr.subtype _ _)
  · exact .anyM fun _ _ => hr.subtype _ _
  · exact .bind (.anyM fun _ _ => hr.subtype _ _) fun _ => .ite (.pure _) (hr.objectSubtype _ _ _)
  · exact .anyM fun _ _ => hr.subtype _ _
  · exact hr.plainSubtype _ _

theorem varSubtype (a : Ty) (bound : Option Ty) (b : Ty) : Universe.Modest (Rules.varSubtype r a bound b) := by
  rw [Rules.varSubtype.eq_def]
  cases bound with
  | none =>
    cases b with
    | union bs => exact .bind (.anyM fun _ _ => hr.subtype _ _) fun _ => .ite (.pure _) (.pure _)
    | _ => exact .bind (.pure false) fun _ => .ite (.pure _) (.pure _)
  | some c =>
    cases b with
    | union bs => exact .bind (.anyM fun _ _ => hr.subtype _ _) fun _ => .ite (.pure _) (hr.subtype _ _)
    | _ => exact .bind (.pure false) fun _ => .ite (.pure _) (hr.subtype _ _)

theorem subtypeRule (a b : Ty) : Universe.Modest (Rules.subtypeRule r a b) := by
  rw [Rules.subtypeRule.eq_def]
  split
  · exact .pure _
  · exact .pure _
  · exact .pure _
  · exact .pure _
  · exact .allM fun _ _ => hr.subtype _ _
  · exact .allM fun _ _ => hr.subtype _ _
  · exact hr.varSubtype _ _ _
  · exact hr.rightSubtype _ _

theorem subtypeStep (a b : Ty) : Universe.Modest (Rules.subtypeStep r a b) := by
  refine .ite (.pure _) (.bind (.answered? _) fun remembered => ?_)
  cases remembered with
  | some answer => exact .pure _
  | none => exact .bind (hr.subtypeRule a b) fun _ => .bind (.remember _ _) fun _ => .pure _

/-! ### Disjointness -/

theorem propsDisjoint (propsA propsB : List (Property Ty)) :
    Universe.Modest (Rules.propsDisjoint r propsA propsB) := by
  refine .anyM fun pa _ => ?_
  cases Ty.findProp? propsB pa.name with
  | none => exact .pure _
  | some pb => exact .ite (.pure _) (hr.disjoint _ _)

theorem elemsDisjoint (elemsA elemsB : List (Elem Ty)) : Universe.Modest (Rules.elemsDisjoint r elemsA elemsB) := by
  induction elemsA generalizing elemsB with
  | nil => exact .pure _
  | cons ea as ih =>
    cases elemsB with
    | nil => exact .pure _
    | cons eb bs => exact .ite (.bind (hr.disjoint _ _) fun _ => .ite (.pure _) (ih bs)) (ih bs)

theorem partsDisjoint (a b : Ty) : Universe.Modest (Rules.partsDisjoint r a b) := by
  rw [Rules.partsDisjoint.eq_def]
  split
  · exact .pure _
  · exact hr.propsDisjoint _ _
  · exact .ite (.pure _) (hr.elemsDisjoint _ _)
  · exact .pure _

theorem disjointStep (a b : Ty) : Universe.Modest (Rules.disjointStep r a b) := by
  have hparts := hr.partsDisjoint a b
  refine .ite (.pure _) (.ite (.pure _) (.ite ?_ ?_))
  · exact .allM fun _ _ => .allM fun _ _ => hr.disjoint _ _
  · exact .bind (hr.subtype _ _) fun _ => .ite (.pure _)
      (.bind (hr.subtype _ _) fun _ => .ite (.pure _) (.ite (.pure _) hparts))

/-! ### Properties -/

theorem foundProps (name : Text) (ts : List Ty) : Universe.Modest (Rules.foundProps r name ts) := by
  induction ts with
  | nil => exact .pure _
  | cons t ts ih =>
    refine .bind (hr.propertyOf _ _) fun found => ?_
    cases found with
    | none => exact ih
    | some p => exact .bind ih fun _ => .pure _

theorem sharedProps (name : Text) (ts : List Ty) : Universe.Modest (Rules.sharedProps r name ts) := by
  induction ts with
  | nil => exact .pure _
  | cons t ts ih =>
    refine .bind (hr.propertyOf _ _) fun found => ?_
    cases found with
    | none => exact .pure _
    | some p =>
      refine .bind ih fun rest => ?_
      cases rest with
      | none => exact .pure _
      | some ps => exact .pure _

theorem meetProps (merged : Property Ty) (ps : List (Property Ty)) :
    Universe.Modest (Rules.meetProps r merged ps) := by
  induction ps generalizing merged with
  | nil => exact .pure _
  | cons p ps ih => exact .bind (hr.intersect _) fun _ => ih _

theorem propertyStep (t : Ty) (name : Text) : Universe.Modest (Rules.propertyStep r t name) := by
  rw [Rules.propertyStep.eq_def]
  split
  · exact .pure _
  · exact .pure _
  · exact .pure _
  · exact .ite (.bind (TypeStore.modest_literal _) fun _ => .pure _) (.pure _)
  · exact hr.propertyOf _ _
  · refine .bind (hr.foundProps _ _) fun found => ?_
    cases found with
    | nil => exact .pure _
    | cons p ps => exact .bind (hr.meetProps _ _) fun _ => .pure _
  · refine .bind (hr.sharedProps _ _) fun found => ?_
    cases found with
    | none => exact .pure _
    | some ps => exact .bind (TypeStore.modest_union _) fun _ => .pure _
  · exact .pure _

/-! ### Intersections -/

theorem mergedProps (propsA propsB : List (Property Ty)) :
    Universe.Modest (Rules.mergedProps r propsB propsA) := by
  induction propsA with
  | nil => exact .pure _
  | cons pa rest ih =>
    rw [Rules.mergedProps]
    cases Ty.findProp? propsB pa.name with
    | none =>
      refine .bind ih fun found => ?_
      cases found <;> exact .pure _
    | some pb =>
      refine .bind (hr.intersect _) fun _ => .ite (.pure _) (.bind ih fun found => ?_)
      cases found <;> exact .pure _

theorem mergeObjects (a b : Ty) : Universe.Modest (Rules.mergeObjects r a b) := by
  rw [Rules.mergeObjects.eq_def]
  split
  · refine .bind .hierarchy fun h => ?_
    split
    · exact .pure _
    · refine .bind (hr.mergedProps _ _) fun found => ?_
      cases found with
      | none => exact .pure _
      | some ps => exact .bind (.intern rfl) fun _ => .pure _
  · exact .pure _

theorem combine (a b : Ty) : Universe.Modest (Rules.combine r a b) :=
  .bind (hr.subtype _ _) fun _ => .ite (.pure _) (.bind (hr.subtype _ _) fun _ => .ite (.pure _)
    (.bind (hr.disjoint _ _) fun _ => .ite (.pure _) (hr.mergeObjects _ _)))

theorem fuseWith (a : Ty) (before rest : List Ty) : Universe.Modest (Rules.fuseWith r a before rest) := by
  induction rest generalizing before with
  | nil => exact .pure _
  | cons b rest ih =>
    refine .bind (hr.combine _ _) fun fusion => ?_
    cases fusion with
    | apart => exact ih _
    | empty => exact .pure _
    | into t => exact .pure _

theorem fuseFirst (before members : List Ty) : Universe.Modest (Rules.fuseFirst r before members) := by
  induction members generalizing before with
  | nil => exact .pure _
  | cons a rest ih =>
    refine .bind (hr.fuseWith _ _ _) fun sweep => ?_
    cases sweep with
    | stable => exact ih _
    | empty => exact .pure _
    | fused members => exact .pure _

theorem fuseAll (rounds : Nat) (members : List Ty) : Universe.Modest (Rules.fuseAll r rounds members) := by
  induction rounds generalizing members with
  | zero => exact .pure _
  | succ n ih =>
    refine .bind (hr.fuseFirst _ _) fun sweep => ?_
    cases sweep with
    | stable => exact .pure _
    | empty => exact .pure _
    | fused members => exact ih members

theorem intersectStep (ts : List Ty) : Universe.Modest (Rules.intersectStep r ts) := by
  rw [Rules.intersectStep]
  cases Ty.conjunctsAll ts with
  | none => exact .pure _
  | some flat =>
    dsimp only
    split
    · exact .bind (.mapM fun _ _ => hr.intersect _) fun _ => TypeStore.modest_union _
    · refine .bind (hr.fuseAll _ _) fun members => ?_
      cases members with
      | none => exact .pure _
      | some members =>
        match members with
        | [] => exact .pure _
        | [_] => exact .pure _
        | _ :: _ :: _ => exact .intern rfl

end Modest

/-- **Questions only move the universe.** -/
theorem modest_upTo (n : Nat) : (upTo n : Rules InUniverse).Modest := by
  induction n with
  | zero =>
    have hdone {α : Type} (a : α) : Universe.Modest (do TypeStore.giveUp; return a) :=
      .bind .giveUp fun _ => .pure a
    exact ⟨fun _ _ => hdone false, fun _ _ => hdone false, fun _ _ => hdone none, fun _ => hdone Ty.never⟩
  | succ n ih => exact ⟨ih.subtypeStep, ih.disjointStep, ih.propertyStep, ih.intersectStep⟩

end Rules

namespace TypeStore

theorem modest_subtype (a b : Ty) : Modest (subtype a b) := ((Rules.modest_upTo _).subtype a b).bounded

theorem modest_disjoint (a b : Ty) : Modest (disjoint a b) := ((Rules.modest_upTo _).disjoint a b).bounded

theorem modest_propertyOf (t : Ty) (name : Text) : Modest (propertyOf t name) :=
  ((Rules.modest_upTo _).propertyOf t name).bounded

theorem modest_intersect (ts : List Ty) : Modest (intersect ts) := ((Rules.modest_upTo _).intersect ts).bounded

end TypeStore
end FlowTyping
