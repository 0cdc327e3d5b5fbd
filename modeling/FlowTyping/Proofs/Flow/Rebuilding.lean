import FlowTyping.Proofs.Flow.History
import FlowTyping.Proofs.Relation.Untagged
import FlowTyping.Proofs.Relation.Greatest
import FlowTyping.Proofs.Store.Rebuilt
import FlowTyping.Proofs.Store.Transparent

/-!
# Rebuilding a type is the identity

What a universe has made is made so again: an entry with nothing replaced is rebuilt to itself, and another
universe with the same classes makes a type of the same key of it. Only the intersections in the entry depend on
the classes. Each was settled when it was added, for the classes of that time, and stays settled if its tags were
declared then.

* **`Universe.Move`** — what an operation makes of a universe; **`Universe.Move.grows`** says what it does to the
  entries and to the classes.
* **`Universe.Timely`** — the intersections in the type were added when their tags were declared.
* **`Universe.History.rebuild_self`** — such an entry is rebuilt to itself, in this universe and through another.
* **`Universe.veiled_not_rebuilt`** — another universe that was given a name which is no word makes another type.
-/

namespace FlowTyping

open Ty Relation

namespace Universe

variable {u v w : Universe} {s t : Ty}

/-! ## What operations make of a universe -/

/-- One operation: a call, the declaration of a class without a shape, or a pass. -/
inductive Move : Universe → Universe → Prop where
  | call {u : Universe} (c : Call) (htypes : ∀ t ∈ c.types, u.Keeps t) (hnames : ∀ word ∈ c.names, word.IsWord) :
    Move u (c.serve.run u).2
  | bare {u : Universe} {h : Hierarchy} (name : String) (parents : List String) (hname : Text.IsWord name)
    (hdeclare : u.classes.declare { name, parents, shape := none } = .ok h) (hright : u.memory.Right h) :
    Move u ((InUniverse.declareBare name parents).run u).2
  | pass {u : Universe} (g : Graph) (s : Surroundings) (limit n : Nat)
    (htypes : ∀ t ∈ g.types ++ s.types, u.Keeps t) : Move u (u.passOver g s limit n).2

theorem History.move (hu : u.History) (huv : Move u v) : v.History := by
  cases huv with
  | call c htypes hnames => exact .call hu c htypes hnames
  | bare name parents hname hdeclare hright => exact .bare hu name parents hname hdeclare hright
  | pass g s limit n htypes => exact .pass hu g s limit n htypes

theorem History.moves (hu : u.History) (huv : ReflTransGen Move u v) : v.History := by
  induction huv with
  | refl => exact hu
  | tail _ hmove ih => exact ih.move hmove

/-- A call declares at most one class. -/
theorem extends_serve {c : Call} (hu : u.Sound u.classes) (hproper : u.classes.Proper)
    (htypes : ∀ t ∈ c.types, u.Keeps t) (hnames : ∀ word ∈ c.names, word.IsWord) :
    u.classes.Extends (c.serve.run u).2.classes := by
  by_cases hclass : ∃ name parents props, c = .declareClass name parents props
  · obtain ⟨name, parents, props, rfl⟩ := hclass
    rw [classes_of_serve_declareClass]
    rcases @declareClass_classes u name parents props with heq | ⟨c, -, hdeclare⟩
    · rw [heq]
      exact .refl _
    · exact Hierarchy.extends_declare hproper.declared hdeclare
  · rw [serve_classes hu (fun name parents props heq => hclass ⟨name, parents, props, heq⟩) htypes hnames]
    exact .refl _

/-- **An operation adds entries, of which the intersections are settled, and classes.** -/
theorem Move.grows (hu : u.History) (huv : Move u v) : u.Grows v.classes v ∧ u.classes.Extends v.classes := by
  obtain ⟨hsound, hproper⟩ := hu.sound
  cases huv with
  | call c htypes hnames =>
    obtain ⟨h, hv, hgrows, -⟩ := Call.serve_sound hsound htypes hnames
    exact ⟨hv.classes_eq ▸ hgrows, extends_serve hsound hproper htypes hnames⟩
  | bare name parents hname hdeclare hright =>
    rw [run_declareBare hdeclare]
    exact ⟨⟨id, .inl⟩, Hierarchy.extends_declare hproper.declared hdeclare⟩
  | pass g s limit n htypes =>
    obtain ⟨hafter, hgrows⟩ := @Sound.passOver u g s limit n hsound hproper htypes
    rw [hafter.classes_eq]
    exact ⟨hgrows, .refl _⟩

/-- Any number of operations adds classes. -/
theorem History.extends (hu : u.History) (huv : ReflTransGen Move u v) : u.classes.Extends v.classes := by
  induction huv with
  | refl => exact .refl _
  | tail hmoves hmove ih => exact ih.trans (hmove.grows (hu.moves hmoves)).2

/-! ## Types that were made when their tags were declared -/

/-- The type was added by an operation after which all its tags were declared, on the way to this universe. -/
def AddedInTime (v : Universe) (t : Ty) : Prop :=
  ∃ u w : Universe, u.History ∧ ¬ u.Keeps t ∧ Move u w ∧ w.Keeps t ∧ Known w.classes t ∧ ReflTransGen Move w v

/-- Each intersection in the type was added when its tags were declared. -/
inductive Timely (v : Universe) : Ty → Prop where
  | intro {t : Ty} (hown : t.isInter = true → v.AddedInTime t) (hparts : ∀ s ∈ t.parts, Timely v s) : Timely v t

/-- An intersection that was added in time does not combine further. -/
theorem AddedInTime.intersect_eq {ms : List Ty} (ht : v.AddedInTime (.inter ms)) :
    v.classes.intersect ms = .inter ms := by
  obtain ⟨u, w, hu, hnew, hmove, hkept, hknown, hlater⟩ := ht
  have hw := hu.move hmove
  have hsettled := ((hmove.grows hu).1.settled hkept).resolve_left hnew
  exact hw.sound.1.intersect_of_known hkept hsettled hknown (hw.extends hlater)

theorem Timely.stable (ht : v.Timely t) : Stable v.classes t := by
  induction ht with
  | intro hown _ ih =>
    refine .intro (fun ms heq => ?_) ih
    subst heq
    exact (hown rfl).intersect_eq

/-- Where every intersection was added in time, all entries are timely. -/
theorem Sound.timely {h : Hierarchy} (hv : v.Sound h) (hinter : ∀ ms, v.Keeps (.inter ms) → v.AddedInTime (.inter ms))
    (ht : v.Keeps t) : v.Timely t := by
  induction t using parts_induction with
  | step t ih =>
    refine .intro (fun hi => ?_) fun s hs => ih s hs (hv.part ht s hs)
    cases t with
    | inter ms => exact hinter ms ht
    | _ => simp [isInter] at hi

/-- **Rebuilding is the identity.** In a universe that comes of a new one by calls with words for names, by
declarations of classes and by passes over bodies, let each intersection in an entry have been added when its tags
were declared, with further classes declared since or not. Then replacing type parameters that are not among
those of the entry answers the entry. And what another such universe with the same lineage of classes keeps for
the entry has its key, and is answered by the entry when it comes back. -/
theorem History.rebuild_self (hv : v.History) (ht : v.Keeps t) (htimely : v.Timely t) :
    (∀ subst : Subst, (∀ x ∈ t.freeVars, subst.get? x = none) →
      ((TypeStore.apply t subst : InUniverse Ty).run v).1 = t) ∧
    ∀ w : Universe, w.History → w.classes.derives = v.classes.derives →
      ((TypeStore.normalize t : InUniverse Ty).run w).1.key = t.key ∧
        ((TypeStore.normalize ((TypeStore.normalize t : InUniverse Ty).run w).1 : InUniverse Ty).run v).1 = t := by
  have hsound := hv.sound.1
  have hstable := htimely.stable
  refine ⟨fun subst hunbound => hsound.run_apply ht hstable hunbound, fun w hw hderives => ?_⟩
  have hother : Stable w.classes t := hstable.imp fun ms heq => by
    rw [Hierarchy.intersect_eq_of_derives hderives, heq]
  have hkey := hw.sound.1.key_normalize (hsound.made ht) hother
  exact ⟨hkey, congrArg Prod.fst (run_normalize_of_key ht hkey)⟩

/-! ### An animal of some type -/

/-- A type parameter and the shape of an animal. -/
def animals : List Ty := atoms ++ [.var "T" none] ++ [tagged "Animal"]

/-- An animal that is of the type that the parameter stands for. -/
def companion : Ty := .inter [tagged "Animal", .var "T" none]

theorem animals_history : (keeping animals animalClass { capacity := 0 }).History := by
  have hnew : (keeping atoms {} { capacity := 0 }).History := .new 0
  have hparam : (keeping (atoms ++ [.var "T" none]) {} { capacity := 0 }).History := by
    have hcall : ((Call.typeVar "T" none).serve.run (keeping atoms {} { capacity := 0 })).2 =
        keeping (atoms ++ [.var "T" none]) {} { capacity := 0 } :=
      congrArg Prod.snd (intern_keeping (by decide) (by decide))
    exact hcall ▸ .call hnew _ (by simp [Call.types]) (by simpa [Call.names] using (by decide : Text.IsWord "T"))
  have hanimal : (keeping animals {} { capacity := 0 }).History := by
    have hcall : ((Call.object "Animal" [{ name := "name", type := .string }]).serve.run
        (keeping (atoms ++ [.var "T" none]) {} { capacity := 0 })).2 = keeping animals {} { capacity := 0 } :=
      congrArg Prod.snd (intern_keeping (by decide) (by decide))
    refine hcall ▸ .call hparam _ (fun t ht => (lookup?_keeping (by decide)).2 ⟨?_, rfl⟩) ?_
    · obtain rfl : t = .string := by simpa [Call.types] using ht
      simp [atoms]
    · simpa [Call.names] using (⟨by decide, by decide⟩ : Text.IsWord "Animal" ∧ Text.IsWord "name")
  exact .bare hanimal "Animal" [] (by decide) rfl (Memory.right_of_empty 0)

/-- What the rules make of an intersection is what a call of it comes to. -/
theorem serve_intersect_of_run {u v : Universe} {ts : List Ty} {t : Ty}
    (hx : ((Rules.upTo (stepBound ts)).intersect ts : InUniverse Ty).run u = (t, v)) (hu : u.spent = false)
    (hv : v.spent = false) : ((Call.intersect ts).serve.run u).2 = v := by
  rw [Call.serve, TypeStore.intersect, StateT.run_bind, run_bounded_of_run hx hu hv]
  rfl

theorem companion_move : Move (keeping animals animalClass { capacity := 0 })
    (keeping (animals ++ [companion]) animalClass { capacity := 0 }) := by
  have hmade : ((Call.intersect [.var "T" none, tagged "Animal"]).serve.run
      (keeping animals animalClass { capacity := 0 })).2 =
        keeping (animals ++ [companion]) animalClass { capacity := 0 } := by
    have hsorted : sortByKey [.var "T" none, tagged "Animal"] = [tagged "Animal", .var "T" none] :=
      (sortByKey_congr (.swap ..) (by decide)).trans
        (sortByKey_of_pairwise (by with_unfolding_all decide))
    have hrun : ((Rules.upTo (stepBound [.var "T" none, tagged "Animal"])).intersect
        [.var "T" none, tagged "Animal"] : InUniverse Ty).run (keeping animals animalClass { capacity := 0 }) =
          (keeping animals animalClass { capacity := 0 }).intern
            (.inter (sortByKey [.var "T" none, tagged "Animal"])) := by
      with_unfolding_all rfl
    rw [hsorted] at hrun
    exact serve_intersect_of_run (hrun.trans (intern_keeping (by decide) (by decide))) rfl rfl
  refine hmade ▸ .call _ (fun t ht => (lookup?_keeping (by decide)).2 ⟨?_, rfl⟩) (by simp [Call.names])
  rcases (by simpa [Call.types] using ht : t = .var "T" none ∨ t = tagged "Animal") with rfl | rfl <;> simp [animals]

/-- Dogs are declared later. -/
theorem dog_move {ts : List Ty} :
    Move (keeping ts animalClass { capacity := 0 }) (keeping ts petClasses { capacity := 0 }) :=
  .bare (u := keeping ts animalClass { capacity := 0 }) "Dog" ["Animal"] (by decide) rfl (Memory.right_of_empty 0)

theorem companion_timely {t : Ty} (ht : (keeping (animals ++ [companion]) petClasses { capacity := 0 }).Keeps t) :
    (keeping (animals ++ [companion]) petClasses { capacity := 0 }).Timely t := by
  have hmade := animals_history.move companion_move
  have hkept {classes : Hierarchy} {t : Ty} : (keeping (animals ++ [companion]) classes { capacity := 0 }).Keeps t ↔
      t ∈ animals ++ [companion] :=
    (lookup?_keeping (by decide)).trans (and_iff_left rfl)
  refine (hmade.move dog_move).sound.1.timely (fun ms hk => ?_) ht
  -- there is one intersection, and one tag
  have heq : .inter ms = companion := by simpa [animals, atoms, tagged] using hkept.1 hk
  rw [heq]
  refine ⟨_, _, animals_history, fun hk => ?_, companion_move, hkept.2 (by simp),
    hmade.sound.1.known (fun tag props hk => .inr ?_) (hkept.2 (by simp)), .single dog_move⟩
  · simpa [animals, companion, atoms, tagged] using ((lookup?_keeping (by decide)).1 hk).1
  · obtain ⟨rfl, -⟩ : tag = "Animal" ∧ _ := by simpa [animals, companion, atoms, tagged] using hkept.1 hk
    exact ⟨_, List.mem_singleton_self _, rfl⟩

/-- The intersection is rebuilt to itself after dogs were declared, with another type parameter bound, and comes
back from a universe that has met nothing but the two classes. -/
theorem companion_rebuild_self :
    (keeping (animals ++ [companion]) petClasses { capacity := 0 }).History ∧
      (keeping (animals ++ [companion]) petClasses { capacity := 0 }).Keeps companion ∧
      (keeping (animals ++ [companion]) petClasses { capacity := 0 }).Timely companion ∧
      (∀ x ∈ companion.freeVars, Subst.get? [⟨.var "U" none, .number⟩] x = none) ∧
      ((TypeStore.apply companion [⟨.var "U" none, .number⟩] : InUniverse Ty).run
        (keeping (animals ++ [companion]) petClasses { capacity := 0 })).1 = companion ∧
      (keeping atoms petClasses { capacity := 0 }).History ∧
      (keeping atoms petClasses { capacity := 0 }).classes.derives = petClasses.derives ∧
      ((TypeStore.normalize companion : InUniverse Ty).run (keeping atoms petClasses { capacity := 0 })).1.key =
        companion.key := by
  have hhistory := (animals_history.move companion_move).move dog_move
  have hkept : (keeping (animals ++ [companion]) petClasses { capacity := 0 }).Keeps companion :=
    (lookup?_keeping (by decide)).2 ⟨by simp, rfl⟩
  have hother : (keeping atoms petClasses { capacity := 0 }).History := by
    have hnew : (keeping atoms {} { capacity := 0 }).History := .new 0
    exact (hnew.bare "Animal" [] (by decide) rfl (Memory.right_of_empty 0)).move dog_move
  have hvars : companion.freeVars = [.var "T" none] := by with_unfolding_all rfl
  have hunbound : ∀ x ∈ companion.freeVars, Subst.get? [⟨.var "U" none, .number⟩] x = none := by
    rw [hvars, List.forall_mem_singleton]
    rfl
  have htimely := companion_timely hkept
  obtain ⟨hself, hback⟩ := hhistory.rebuild_self hkept htimely
  exact ⟨hhistory, hkept, htimely, hunbound, hself _ hunbound, hother, rfl, (hback _ hother rfl).1⟩

/-! ### A name that is no word -/

/-- The shape with an optional number. -/
def shapeOptional : Ty := .object "" [{ name := "a", type := .number, optional := true }]

/-- A function without parameters. -/
def giving (t : Ty) : Ty := .function [] t

/-- Two shapes that exclude each other but for an optional property, and the functions that give them. -/
def givers : List Ty := atoms ++ [shapeAB] ++ [shapeOptional] ++ [giving shapeAB] ++ [giving shapeOptional]

/-- A function that gives values of both shapes. -/
def givingBoth : Ty := .inter [giving shapeAB, giving shapeOptional]

theorem history_giving {ts : List Ty} {t : Ty} (hu : (holding ts).History) (hts : (ts.map Ty.key).Nodup)
    (hnew : (giving t).key ∉ ts.map Ty.key) (ht : t ∈ ts) : (holding (ts ++ [giving t])).History := by
  have hcall : ((Call.function [] t).serve.run (holding ts)).2 = holding (ts ++ [giving t]) :=
    congrArg Prod.snd (intern_of_not_mem hts hnew)
  refine hcall ▸ .call hu _ (fun s hs => ?_) (by simp [Call.names])
  obtain rfl : s = t := by simpa [Call.types] using hs
  exact (lookup?_holding hts).2 ⟨ht, rfl⟩

theorem givers_history : (holding givers).History := by
  have hnew : (holding atoms).History := .new 0
  have hboth := history_object [{ name := "a", type := .string }, { name := "b", type := .number }] hnew (by decide)
    (by decide) (by with_unfolding_all rfl) (by simp [atoms]) (by decide)
  have hoptional := history_object [{ name := "a", type := .number, optional := true }] hboth (by decide) (by decide)
    rfl (by simp [atoms]) (by decide)
  have hgiving := history_giving (t := shapeAB) hoptional (by decide) (by decide) (by simp [shapeAB])
  exact history_giving (t := shapeOptional) hgiving (by decide) (by decide) (by simp [shapeOptional])

theorem givingBoth_move : Move (holding givers) (holding (givers ++ [givingBoth])) := by
  have hmade : ((Call.intersect [giving shapeAB, giving shapeOptional]).serve.run (holding givers)).2 =
      holding (givers ++ [givingBoth]) := by
    have hrun : ((Rules.upTo (stepBound [giving shapeAB, giving shapeOptional])).intersect
        [giving shapeAB, giving shapeOptional] : InUniverse Ty).run (holding givers) =
          (holding givers).intern (.inter (sortByKey [giving shapeAB, giving shapeOptional])) := by
      with_unfolding_all rfl
    have hsorted : sortByKey [giving shapeAB, giving shapeOptional] = [giving shapeAB, giving shapeOptional] :=
      sortByKey_of_pairwise (by with_unfolding_all decide)
    rw [hsorted] at hrun
    exact serve_intersect_of_run (hrun.trans (intern_of_not_mem (by decide) (by decide))) rfl rfl
  refine hmade ▸ .call _ (fun t ht => (lookup?_holding (by decide)).2 ⟨?_, rfl⟩) (by simp [Call.names])
  rcases (by simpa [Call.types] using ht : t = giving shapeAB ∨ t = giving shapeOptional) with rfl | rfl <;>
    simp [givers]

theorem givingBoth_timely {t : Ty} (ht : (holding (givers ++ [givingBoth])).Keeps t) :
    (holding (givers ++ [givingBoth])).Timely t := by
  have hmade := givers_history.move givingBoth_move
  have hkept {t : Ty} : (holding (givers ++ [givingBoth])).Keeps t ↔ t ∈ givers ++ [givingBoth] :=
    (lookup?_holding (by decide)).trans (and_iff_left rfl)
  refine hmade.sound.1.timely (fun ms hk => ?_) ht
  have heq : .inter ms = givingBoth := by simpa [givers, atoms, giving, shapeAB, shapeOptional] using hkept.1 hk
  rw [heq]
  refine ⟨_, _, givers_history, fun hk => ?_, givingBoth_move, hkept.2 (by simp),
    hmade.sound.1.known (fun tag props hk => .inl ?_) (hkept.2 (by simp)), .refl⟩
  · simpa [givers, givingBoth, atoms, giving, shapeAB, shapeOptional] using ((lookup?_holding (by decide)).1 hk).1
  · rcases (by simpa [givers, givingBoth, atoms, giving, shapeAB, shapeOptional] using hkept.1 hk) with ⟨rfl, -⟩ | ⟨rfl, -⟩ <;> rfl

theorem rebuild_givingBoth : (TypeStore.rebuild [] givingBoth : InUniverse Ty) = (do
    let s ← TypeStore.object "" [{ name := "a", type := .string }, { name := "b", type := .number }]
    let f ← TypeStore.function [] s
    let t ← TypeStore.object "" [{ name := "a", type := .number, optional := true }]
    let g ← TypeStore.function [] t
    TypeStore.intersect [f, g]) := by
  simp only [givingBoth, giving, shapeAB, shapeOptional, TypeStore.rebuild, TypeStore.rebuildAll,
    TypeStore.rebuildParams, TypeStore.rebuildProps, pure_bind, bind_assoc]

/-- The entries of a universe that keeps the veiled shape in the place of the one with two properties. -/
def veiledGivers : List Ty := atoms ++ [Session.veiled] ++ [giving Session.veiled] ++ [shapeOptional] ++ [giving shapeOptional]

/-- There the first function is below the second. -/
theorem run_normalize_givingBoth :
    (TypeStore.normalize givingBoth : InUniverse Ty).run (holding (atoms ++ [Session.veiled])) =
      (giving Session.veiled, holding veiledGivers) := by
  have hnone : (holding (atoms ++ [Session.veiled])).lookup? givingBoth.key = none := by
    rw [Option.eq_none_iff_forall_not_mem]
    intro s hs
    obtain ⟨hmem, hk⟩ := (lookup?_holding (by decide)).1 hs
    have hno : givingBoth.key ∉ (atoms ++ [Session.veiled]).map Ty.key := by decide
    exact hno (hk ▸ List.mem_map_of_mem hmem)
  have hveiled : (TypeStore.object "" [{ name := "a", type := .string }, { name := "b", type := .number }] :
      InUniverse Ty).run (holding (atoms ++ [Session.veiled])) =
        (Session.veiled, holding (atoms ++ [Session.veiled])) := by
    have hmade : (TypeStore.object "" [{ name := "a", type := .string }, { name := "b", type := .number }] :
        InUniverse Ty).run (holding (atoms ++ [Session.veiled])) =
          (holding (atoms ++ [Session.veiled])).intern shapeAB := by
      with_unfolding_all rfl
    rw [hmade]
    exact intern_of_mem (by decide) (by simp) (by decide)
  have hgiving : (TypeStore.function [] Session.veiled : InUniverse Ty).run (holding (atoms ++ [Session.veiled])) =
      (giving Session.veiled, holding (atoms ++ [Session.veiled] ++ [giving Session.veiled])) :=
    intern_of_not_mem (by decide) (by decide)
  have hoptional : (TypeStore.object "" [{ name := "a", type := .number, optional := true }] : InUniverse Ty).run
      (holding (atoms ++ [Session.veiled] ++ [giving Session.veiled])) =
        (shapeOptional, holding (atoms ++ [Session.veiled] ++ [giving Session.veiled] ++ [shapeOptional])) :=
    intern_of_not_mem (by decide) (by decide)
  have hlast : (TypeStore.function [] shapeOptional : InUniverse Ty).run
      (holding (atoms ++ [Session.veiled] ++ [giving Session.veiled] ++ [shapeOptional])) =
        (giving shapeOptional, holding veiledGivers) :=
    intern_of_not_mem (by decide) (by decide)
  rw [run_normalize_eq, hnone]
  dsimp only
  rw [rebuild_givingBoth, run_bind_of_run hveiled, run_bind_of_run hgiving, run_bind_of_run hoptional,
    run_bind_of_run hlast]
  with_unfolding_all rfl

/-- **In a universe that keeps a shape with one property, whose name reads like the first of two properties with its
type and the second, that shape is taken for the one with both.** It has no property of the first name, so it is
below a shape where that is optional, and an intersection of functions that give the two is one of them. -/
theorem veiled_not_rebuilt : (holding (givers ++ [givingBoth])).History ∧
    (holding (givers ++ [givingBoth])).Keeps givingBoth ∧ (holding (givers ++ [givingBoth])).Timely givingBoth ∧
    ((Session.start 0).run [.object "" [{ name := "a:string;b", type := .number }]]).store.classes =
      (holding (givers ++ [givingBoth])).classes ∧
    ((TypeStore.normalize givingBoth : InUniverse Ty).run
      ((Session.start 0).run [.object "" [{ name := "a:string;b", type := .number }]]).store).1.key ≠
        givingBoth.key := by
  have hkept : (holding (givers ++ [givingBoth])).Keeps givingBoth := (lookup?_holding (by decide)).2 ⟨by simp, rfl⟩
  have hstore : ((Session.start 0).run [.object "" [{ name := "a:string;b", type := .number }]]).store =
      holding (atoms ++ [Session.veiled]) :=
    congrArg Prod.snd (intern_of_not_mem (by decide) (by decide))
  rw [hstore, run_normalize_givingBoth]
  exact ⟨givers_history.move givingBoth_move, hkept, givingBoth_timely hkept, rfl, by decide⟩

end Universe
end FlowTyping
