import FlowTyping.Relation.Answers
import FlowTyping.Universe

/-!
# The plain value of a computation over types

Every operation on types is written over a store. In the store `Ideal h` nothing is kept, so a
computation there is a value, and `Ideal.run` takes it out:

* **`Ideal.run_pure`, `Ideal.run_bind`, …** — how `run` goes through the monad and through the loops
  over lists. All of them are `simp` lemmas, so that a rule written with `do` opens by `simp`.
* **`Hierarchy.subtype`, `Hierarchy.union`, …** — the operations of the public interface as plain
  functions of a class hierarchy. Statements about types are made about these.
* **`Universe.Always`** — some things hold of the result of a computation whatever universe it runs in: which
  variables an environment binds, or how many types come out. **`Always.bind`** follows a computation step by
  step, **`Always.of_all`** passes over a step of which nothing is to be known.
* **`Rules.run_subtypeStep`**, … — the value of each rule, for any answers to the smaller questions, in the terms
  that proofs use: lists of conditions instead of loops with an early exit.
-/

namespace FlowTyping

namespace Ideal

variable {h : Hierarchy} {α β : Type}

/-- The value of a computation that keeps nothing. -/
def run (x : Ideal h α) : α := x

@[simp] theorem run_pure (a : α) : (pure a : Ideal h α).run = a := rfl

@[simp] theorem run_bind (x : Ideal h α) (f : α → Ideal h β) :
    (x >>= f).run = (f x.run).run := rfl

@[simp] theorem run_map (f : α → β) (x : Ideal h α) : (f <$> x).run = f x.run := rfl

@[simp] theorem run_ite {c : Prop} [Decidable c] (x y : Ideal h α) :
    (if c then x else y).run = if c then x.run else y.run := by
  split <;> rfl

/-! ## The store

`Ideal h` keeps no tree and no answer, and its hierarchy is `h`. -/

@[simp] theorem run_intern (t : Ty) : (TypeStore.intern t : Ideal h Ty).run = t := rfl

@[simp] theorem run_hierarchy : (TypeStore.hierarchy : Ideal h Hierarchy).run = h := rfl

@[simp] theorem run_answered? (question : Text × Text) :
    (TypeStore.answered? question : Ideal h (Option Bool)).run = none := rfl

@[simp] theorem run_giveUp : (TypeStore.giveUp : Ideal h Unit).run = () := rfl

@[simp] theorem run_bounded (answer : α) (question : Ideal h α) :
    (TypeStore.bounded answer question : Ideal h α).run = question.run := rfl

@[simp] theorem run_literal (value : Literal) :
    (TypeStore.literal value : Ideal h Ty).run = .literal value := rfl

@[simp] theorem run_object (tag : String) (props : List (Property Ty)) :
    (TypeStore.object tag props : Ideal h Ty).run = .object tag (TypeStore.sortProps props) := rfl

/-! ## Loops over lists -/

@[simp] theorem run_anyM (p : α → Ideal h Bool) (xs : List α) :
    (xs.anyM p).run = xs.any fun x => (p x).run := by
  induction xs with
  | nil => rfl
  | cons x xs ih =>
    rw [List.anyM, List.any_cons, run_bind]
    cases (p x).run
    · simpa using ih
    · rfl

@[simp] theorem run_allM (p : α → Ideal h Bool) (xs : List α) :
    (xs.allM p).run = xs.all fun x => (p x).run := by
  induction xs with
  | nil => rfl
  | cons x xs ih =>
    rw [List.allM, List.all_cons, run_bind]
    cases (p x).run
    · rfl
    · simpa using ih

@[simp] theorem run_mapM (f : α → Ideal h β) (xs : List α) :
    (xs.mapM f).run = xs.map fun x => (f x).run := by
  induction xs with
  | nil => rfl
  | cons x xs ih =>
    rw [List.mapM_cons, List.map_cons, run_bind, run_bind, ih]
    rfl

/-- `filterM` collects from the back, so the accumulator is in the statement. -/
theorem run_filterAuxM (p : α → Ideal h Bool) (xs acc : List α) :
    (xs.filterAuxM p acc).run = (xs.filter fun x => (p x).run).reverse ++ acc := by
  induction xs generalizing acc with
  | nil => rfl
  | cons x xs ih =>
    rw [List.filterAuxM, run_bind, ih, List.filter_cons]
    cases (p x).run <;> simp

@[simp] theorem run_filterM (p : α → Ideal h Bool) (xs : List α) :
    (xs.filterM p).run = xs.filter fun x => (p x).run := by
  rw [List.filterM, run_bind, run_filterAuxM]
  simp

end Ideal

/-! ## The public operations as plain functions -/

namespace Hierarchy

/-- Whether every value of `a` may stand where a `b` is wanted. -/
def subtype (h : Hierarchy) (a b : Ty) : Bool := (TypeStore.subtype a b : Ideal h Bool).run

/-- Whether `a` and `b` provably share no value. -/
def disjoint (h : Hierarchy) (a b : Ty) : Bool := (TypeStore.disjoint a b : Ideal h Bool).run

/-- The property of a type under a name. -/
def propertyOf (h : Hierarchy) (t : Ty) (name : Text) : Option (Property Ty) :=
  (TypeStore.propertyOf t name : Ideal h _).run

/-- The intersection of types. -/
def intersect (h : Hierarchy) (ts : List Ty) : Ty := (TypeStore.intersect ts : Ideal h Ty).run

/-- The union of types. -/
def union (h : Hierarchy) (ts : List Ty) : Ty := (TypeStore.union ts : Ideal h Ty).run

/-- The intersection of two types. -/
def meet (h : Hierarchy) (a b : Ty) : Ty := h.intersect [a, b]

/-- The public operations, each as the answer to its question. -/
def answers (h : Hierarchy) : Rules (Ideal h) :=
  { subtype := TypeStore.subtype
    disjoint := TypeStore.disjoint
    propertyOf := TypeStore.propertyOf
    intersect := TypeStore.intersect }

end Hierarchy

namespace Ideal

variable {h : Hierarchy}

@[simp] theorem run_subtype (a b : Ty) :
    (TypeStore.subtype a b : Ideal h Bool).run = h.subtype a b := rfl

@[simp] theorem run_disjoint (a b : Ty) :
    (TypeStore.disjoint a b : Ideal h Bool).run = h.disjoint a b := rfl

@[simp] theorem run_propertyOf (t : Ty) (name : Text) :
    (TypeStore.propertyOf t name : Ideal h _).run = h.propertyOf t name := rfl

@[simp] theorem run_intersect (ts : List Ty) :
    (TypeStore.intersect ts : Ideal h Ty).run = h.intersect ts := rfl

@[simp] theorem run_union (ts : List Ty) :
    (TypeStore.union ts : Ideal h Ty).run = h.union ts := rfl

@[simp] theorem run_meet (a b : Ty) : (TypeStore.meet a b : Ideal h Ty).run = h.meet a b := rfl

@[simp] theorem run_answers_subtype (a b : Ty) : (h.answers.subtype a b).run = h.subtype a b := rfl

@[simp] theorem run_answers_disjoint (a b : Ty) :
    (h.answers.disjoint a b).run = h.disjoint a b := rfl

@[simp] theorem run_answers_propertyOf (t : Ty) (name : Text) :
    (h.answers.propertyOf t name).run = h.propertyOf t name := rfl

@[simp] theorem run_answers_intersect (ts : List Ty) :
    (h.answers.intersect ts).run = h.intersect ts := rfl

end Ideal
end FlowTyping

/-! ## Results in whatever universe -/

namespace FlowTyping.Universe

variable {α β : Type}

/-- A computation goes on from the result and the universe of its first step. -/
theorem run_bind_of_run {x : InUniverse α} {f : α → InUniverse β} {r : α} {u v : Universe}
    (hx : x.run u = (r, v)) : (x >>= f).run u = (f r).run v := by
  show (f (x.run u).1).run (x.run u).2 = _
  rw [hx]

/-- A question that runs out of steps has the given answer and leaves the universe as it was. -/
theorem run_bounded (answer : α) (question : InUniverse α) (u : Universe) :
    (TypeStore.bounded answer question : InUniverse α).run u =
      if (question.run { u with spent := false }).2.spent then (answer, u)
      else ((question.run { u with spent := false }).1,
        { (question.run { u with spent := false }).2 with spent := u.spent }) := rfl

/-- A question that does not run out of steps is asked as it is. -/
theorem run_bounded_of_run {answer a : α} {question : InUniverse α} {u v : Universe}
    (hx : question.run u = (a, v)) (hu : u.spent = false) (hv : v.spent = false) :
    (TypeStore.bounded answer question : InUniverse α).run u = (a, v) := by
  have hsame : { u with spent := false } = u := by rw [← hu]
  rw [run_bounded, hsame, hx, if_neg (by simp [hv]), hu, ← hv]

/-- In every universe the computation ends with such a result. -/
def Always (x : InUniverse α) (Q : α → Prop) : Prop := ∀ u : Universe, Q (x.run u).1

namespace Always

variable {x : InUniverse α} {Q R : α → Prop}

theorem pure {a : α} (ha : Q a) : Always (pure a) Q := fun _ => ha

theorem bind {f : α → InUniverse β} {Q' : β → Prop} (hx : Always x Q) (hf : ∀ a, Q a → Always (f a) Q') :
    Always (x >>= f) Q' := fun u => hf _ (hx u) _

/-- A step of which nothing is to be known. -/
theorem of_all {f : α → InUniverse β} {Q' : β → Prop} (hf : ∀ a, Always (f a) Q') : Always (x >>= f) Q' :=
  fun _ => hf _ _

theorem imp (hx : Always x Q) (hQR : ∀ a, Q a → R a) : Always x R := fun u => hQR _ (hx u)

theorem and (hx : Always x Q) (hx' : Always x R) : Always x fun a => Q a ∧ R a := fun u => ⟨hx u, hx' u⟩

theorem ite {c : Prop} [Decidable c] {y : InUniverse α} (hx : Always x Q) (hy : Always y Q) :
    Always (if c then x else y) Q := by
  split
  · exact hx
  · exact hy

end Always
end FlowTyping.Universe

/-! ## The rules as plain conditions -/

namespace FlowTyping.Rules

variable {h : Hierarchy} (r : Rules (Ideal h)) (a b : Ty)

/-- Types with one key are subtypes of each other; on others the rule decides. -/
theorem run_subtypeStep :
    (subtypeStep r a b).run = (decide (a.key = b.key) || (subtypeRule r a b).run) := by
  by_cases hk : a.key = b.key <;> simp [subtypeStep, hk]

/-- A shape is fitted by what has its tag and each of its properties. -/
theorem run_objectSubtype (ha : a ≠ .null) (ha' : a ≠ .undefined) (tag : String)
    (props : List (Property Ty)) :
    (objectSubtype r a tag props).run =
      ((tag.isEmpty || tagFits h tag a) && (propsSubtype r a props).run) := by
  rw [objectSubtype]
  · by_cases htag : tag.isEmpty = true
    · simp [htag]
    · rw [if_neg htag, Ideal.run_bind, Ideal.run_hierarchy, Ideal.run_ite]
      by_cases hfits : tagFits h tag a = true <;> simp [htag, hfits]
  · exact ha
  · exact ha'

/-- A type parameter is below one of the alternatives, or its bound is below. -/
theorem run_varSubtype (bound : Option Ty) :
    (varSubtype r a bound b).run =
      (b.isUnion && (b.members.any fun t => (r.subtype a t).run) ||
        bound.any fun c => (r.subtype c b).run) := by
  cases bound <;> cases b <;> simp [varSubtype, Ty.isUnion, Ty.members, -List.any_eq_true]

/-- Every property of the shape is there, or may be left out; it is required where the shape requires
it, writable where the shape writes it, and at a subtype. -/
theorem propsSubtype_iff (props : List (Property Ty)) :
    (propsSubtype r a props).run = true ↔ ∀ pb ∈ props,
      match (r.propertyOf a pb.name).run with
      | none => pb.optional = true
      | some pa =>
        (pa.optional = true → pb.optional = true) ∧ (pa.readonly = true → pb.readonly = true) ∧
          (r.subtype pa.type pb.type).run = true := by
  induction props with
  | nil => simp [propsSubtype]
  | cons pb rest ih =>
    rw [List.forall_mem_cons, ← ih, propsSubtype, Ideal.run_bind]
    cases (r.propertyOf a pb.name).run with
    | none => simp
    | some pa =>
      cases ho : pa.optional <;> cases hr : pa.readonly <;> simp [ho, hr, and_assoc]

/-- Types with one key share their values, unions are disjoint by members, and a type is not disjoint
from its supertypes. -/
theorem run_disjointStep :
    (disjointStep r a b).run =
      if a.same b then a.isNever
      else if a.isNever || b.isNever then true
      else if a.isUnion || b.isUnion then
        a.members.all fun ta => b.members.all fun tb => (r.disjoint ta tb).run
      else if (r.subtype a b).run then false
      else if (r.subtype b a).run then false
      else if a.differInSort b then true
      else (partsDisjoint r a b).run := by
  simp [disjointStep]

end FlowTyping.Rules
