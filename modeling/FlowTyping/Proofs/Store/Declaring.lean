import FlowTyping.Proofs.Relation.Untagged
import FlowTyping.Proofs.Store.Matched

/-!
# Declaring classes

Classes come into a universe by declarations alone, and whether one succeeds or fails, the universe stays one
in which every class was declared after its parents. So deriving is a partial order: it follows the parent
links, and no two classes derive from each other. What a class derives from is settled by its declaration.

* **`Universe.Declaration`** — a declaration of a class; **`Universe.Declaration.perform_cases`** says what it
  can come to.
* **`Universe.Step`** — a declaration, or anything that leaves the classes alone.
* **`Universe.Step.declared`** keeps the order of the declarations, **`Universe.Step.extends`** keeps what was
  settled.
* **`Universe.declarations_order`** — deriving after any number of steps.
-/

namespace FlowTyping.Universe

open Hierarchy Relation

variable {u v : Universe}

/-! ## Declarations -/

/-- A declaration of a class. -/
inductive Declaration where
  /-- In the hierarchy alone, with a given shape or without one. -/
  | plain (c : ClassDecl)
  /-- With the shape that its parents' properties and its own make. -/
  | shaped (name : String) (parents : List String) (props : List (Property Ty))

namespace Declaration

def name : Declaration → String
  | .plain c => c.name
  | .shaped name _ _ => name

def parents : Declaration → List String
  | .plain c => c.parents
  | .shaped _ parents _ => parents

/-- Makes a declaration. -/
def perform : Declaration → InUniverse (Except ClassError Unit)
  | .plain c => declare c
  | .shaped name parents props => do
    return (← InUniverse.declareClass name parents props).map fun _ => ()

end Declaration

/-- **What a declaration can come to**: an error, with the classes as they were, or a class of this name and
with these parents that is new. -/
theorem Declaration.perform_cases (d : Declaration) (u : Universe) :
    (∃ e, (d.perform.run u).1 = .error e ∧ (d.perform.run u).2.classes = u.classes) ∨
    ∃ c : ClassDecl, c.name = d.name ∧ c.parents = d.parents ∧ (d.perform.run u).1 = .ok () ∧
      u.classes.declare c = .ok (d.perform.run u).2.classes := by
  cases d with
  | plain c =>
    rw [perform, run_declare]
    split
    · rename_i hdeclare
      exact .inr ⟨c, rfl, rfl, rfl, hdeclare⟩
    · exact .inl ⟨_, rfl, rfl⟩
  | shaped name parents props =>
    have hrun : (perform (.shaped name parents props)).run u =
        (((InUniverse.declareClass name parents props).run u).1.map fun _ => (),
          ((InUniverse.declareClass name parents props).run u).2) := rfl
    rw [hrun]
    rcases @declareClass_cases u name parents props with ⟨e, herror, hclasses⟩ | ⟨shape, hok, hdeclare⟩
    · exact .inl ⟨e, by rw [herror]; rfl, hclasses⟩
    · exact .inr ⟨_, rfl, rfl, by rw [hok]; rfl, hdeclare⟩

/-! ## Steps -/

/-- A declaration is made, or something else is done that leaves the classes alone. -/
inductive Step : Universe → Universe → Prop where
  | declaration (u : Universe) (d : Declaration) : Step u (d.perform.run u).2
  | other {u v : Universe} (hclasses : v.classes = u.classes) : Step u v

/-- Makes declarations one after the other. -/
def declareAll (u : Universe) (ds : List Declaration) : Universe :=
  ds.foldl (fun u d => (d.perform.run u).2) u

theorem steps_declareAll (ds : List Declaration) (u : Universe) : ReflTransGen Step u (u.declareAll ds) := by
  induction ds generalizing u with
  | nil => exact .refl
  | cons d ds ih => exact .head (.declaration u d) (ih _)

/-- Every class was declared after its parents. -/
theorem Step.declared (hu : Declared u.classes.classes) (huv : Step u v) : Declared v.classes.classes := by
  cases huv with
  | declaration d =>
    rcases d.perform_cases u with ⟨e, -, hclasses⟩ | ⟨c, -, -, -, hdeclare⟩
    · rwa [hclasses]
    · exact (declared_of_declare hu hdeclare).2
  | other hclasses => rwa [hclasses]

/-- What was declared derives from the same classes. -/
theorem Step.extends (hu : Declared u.classes.classes) (huv : Step u v) : u.classes.Extends v.classes := by
  cases huv with
  | declaration d =>
    rcases d.perform_cases u with ⟨e, -, hclasses⟩ | ⟨c, -, -, -, hdeclare⟩
    · exact hclasses ▸ .refl _
    · exact extends_declare hu hdeclare
  | other hclasses => exact hclasses ▸ .refl _

theorem declared_of_steps (hu : Declared u.classes.classes) (huv : ReflTransGen Step u v) :
    Declared v.classes.classes := by
  induction huv with
  | refl => exact hu
  | tail _ hstep ih => exact hstep.declared ih

theorem extends_of_steps (hu : Declared u.classes.classes) (huv : ReflTransGen Step u v) :
    u.classes.Extends v.classes := by
  induction huv with
  | refl => exact .refl _
  | tail hsteps hstep ih => exact ih.trans (hstep.extends (declared_of_steps hu hsteps))

/-! ## The order of the classes -/

/-- **Deriving is a partial order that is settled by the declarations.** In every universe that comes of one
without classes by declarations, successful or not: a class derives from those that it reaches by parent links,
and no two classes derive from each other. A declaration that fails leaves the classes as they are. One that
succeeds changes what its own name derives from and nothing else; what is declared derives from the same
classes after any number of further steps. -/
theorem declarations_order (table : Std.HashMap Text Ty) (memory : Memory)
    (hu : ReflTransGen Step { table, classes := {}, memory } u) :
    (∀ x y, u.classes.derives x y = true ↔ ReflTransGen (Parent u.classes.classes) x y) ∧
      (∀ x, u.classes.derives x x = true) ∧
      (∀ x y z, u.classes.derives x y = true → u.classes.derives y z = true → u.classes.derives x z = true) ∧
      (∀ x y, u.classes.derives x y = true → u.classes.derives y x = true → x = y) ∧
      (∀ (d : Declaration) (e : ClassError), (d.perform.run u).1 = .error e →
        (d.perform.run u).2.classes = u.classes) ∧
      (∀ d : Declaration, (d.perform.run u).1 = .ok () →
        (∀ x y, x ≠ d.name → (d.perform.run u).2.classes.derives x y = u.classes.derives x y) ∧
        ∀ y, (d.perform.run u).2.classes.derives d.name y = true ↔
          y = d.name ∨ ∃ p ∈ d.parents, u.classes.derives p y = true) ∧
      ∀ v, ReflTransGen Step u v → u.classes.Extends v.classes := by
  have hempty : Declared ({ table, classes := {}, memory } : Universe).classes.classes := trivial
  have hdeclared : Declared u.classes.classes := declared_of_steps hempty hu
  refine ⟨fun x y => derives_iff hdeclared, derives_refl _, fun x y z => derives_trans hdeclared,
    fun x y => derives_antisymm hdeclared, fun d e herror => ?_, fun d hok => ?_,
    fun v hv => extends_of_steps hdeclared hv⟩
  · rcases d.perform_cases u with ⟨-, -, hclasses⟩ | ⟨c, -, -, hok, -⟩
    · exact hclasses
    · simp [hok] at herror
  · rcases d.perform_cases u with ⟨e, herror, -⟩ | ⟨c, hname, hparents, -, hdeclare⟩
    · simp [herror] at hok
    · rw [← hname, ← hparents]
      exact ⟨fun x y hx => derives_declare_of_ne hdeclared hdeclare hx y, derives_declare_self hdeclared hdeclare⟩

/-! ## A class with two parents -/

/-- Planes and boats are crafts, and a seaplane is both. -/
def crafts : Hierarchy where
  classes := [⟨"Seaplane", ["Plane", "Boat"], none⟩, ⟨"Boat", ["Craft"], none⟩, ⟨"Plane", ["Craft"], none⟩,
    ⟨"Craft", [], none⟩]

/-- A universe with these classes and nothing else. -/
def hangar : Universe := { table := ∅, classes := crafts, memory := { capacity := 0 } }

/-- It comes of an empty one, by declarations of which one fails. -/
theorem hangar_steps : ReflTransGen Step { table := ∅, classes := {}, memory := { capacity := 0 } } hangar := by
  exact steps_declareAll [.plain ⟨"Craft", [], none⟩, .plain ⟨"Plane", ["Craft"], none⟩,
    .plain ⟨"Raft", ["Float"], none⟩, .plain ⟨"Boat", ["Craft"], none⟩,
    .plain ⟨"Seaplane", ["Plane", "Boat"], none⟩] _

/-- A seaplane is a craft by either way, a craft is no seaplane, and boats cannot be declared again. -/
theorem hangar_order :
    hangar.classes.derives "Seaplane" "Craft" = true ∧ hangar.classes.derives "Craft" "Seaplane" = false ∧
      ((Declaration.plain ⟨"Boat", [], none⟩).perform.run hangar).2.classes = crafts ∧
      ∀ y, ((Declaration.plain ⟨"Glider", ["Plane"], none⟩).perform.run hangar).2.classes.derives "Plane" y =
        hangar.classes.derives "Plane" y := by
  obtain ⟨hlinks, -, -, hantisymm, hfails, hsucceeds, -⟩ := declarations_order ∅ { capacity := 0 } hangar_steps
  have hcraft : hangar.classes.derives "Seaplane" "Craft" = true := by
    refine (hlinks _ _).2 ?_
    have hboat : Parent hangar.classes.classes "Seaplane" "Boat" :=
      ⟨⟨"Seaplane", ["Plane", "Boat"], none⟩, by simp [hangar, crafts], rfl, by simp⟩
    have hcraft : Parent hangar.classes.classes "Boat" "Craft" :=
      ⟨⟨"Boat", ["Craft"], none⟩, by simp [hangar, crafts], rfl, by simp⟩
    exact .tail (.single hboat) hcraft
  refine ⟨hcraft, ?_, hfails _ (.redeclared "Boat") rfl, fun y => (hsucceeds _ rfl).1 _ y (by decide)⟩
  rw [Bool.eq_false_iff]
  intro hback
  exact absurd (hantisymm _ _ hcraft hback) (by decide)

end FlowTyping.Universe
