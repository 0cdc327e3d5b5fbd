import FlowTyping.Proofs.Flow.Tables
import FlowTyping.Proofs.Store.Transparent

/-!
# What a universe met before makes no difference

Over the same classes, a graph is analysed with the same result in any two universes, but for the names that
function parameters are printed with. The order in which the bodies of a program are analysed is part of what
a universe has met, so it makes no difference either. What does make a difference is a remembered answer that
a later declaration has made wrong.

* **`Graph.Pass.steps_alike`** — two passes, after any number of steps.
* **`Graph.Pass.stale_steps_differ`** — a pass in a universe that was asked too early.
-/

namespace FlowTyping

open Ty

/-- One type: of one key, and equal but for the names of function parameters and the option on rest
parameters. -/
def Ty.DifferInNames (s t : Ty) : Prop := s.key = t.key ∧ s.anonymous = t.anonymous

namespace Graph.Pass

/-- **What else two universes have met makes no difference to a pass**, as long as no declaration has made a
remembered answer wrong: over the same classes, the same graph with the same functions and predicates around
it, given by types of one key, is after any number of steps reached in the same nodes, with environments, calls
and switches whose types differ in the names of function parameters at most, and so do the diagnostics. A whole
analysis ends alike, too. -/
theorem steps_alike {u v : Universe} (hu : u.History) (hv : v.History)
    (hclasses : u.classes.Mirrors SameKey v.classes) {g k : Graph} {s s' : Surroundings}
    (hg : g.Mirrors (Twins.mk u v).Alike k) (hs : s.Mirrors (Twins.mk u v).Alike s') :
    (∀ limit n : Nat,
      (u.passOver g s limit n).1.Mirrors DifferInNames (v.passOver k s' limit n).1 ∧
        List.Forall₂ (fun d e => d.location = e.location ∧ d.finding.Mirrors DifferInNames e.finding)
          ((u.passOver g s limit n).1.diagnostics g) ((v.passOver k s' limit n).1.diagnostics k)) ∧
      ∀ (limits : Limits) (calledOff : Bool), Twins.AnalyzedAlike DifferInNames
        ((g.analyze s limits calledOff : InUniverse _).run u).1
        ((k.analyze s' limits calledOff : InUniverse _).run v).1 := by
  obtain ⟨hleft, hleft'⟩ := hu.sound
  obtain ⟨hright, hright'⟩ := hv.sound
  have hw : (Twins.mk u v).Sound := by
    refine ⟨hleft, hright, hleft', hright', hclasses.imp fun c hc a ha d hd b hb hab => ?_⟩
    exact ⟨hleft.shape c hc a ha, hright.shape d hd b hb, hab⟩
  have hnames {x : Twins} (hx : x.Sound) (a b : Ty) (hab : x.Alike a b) : DifferInNames a b :=
    ⟨hab.key_eq, (key_eq_iff (hx.left.named hab.left) (hx.right.named hab.right)).1 hab.key_eq⟩
  refine ⟨fun limit n => ?_, fun limits calledOff => ?_⟩
  · obtain ⟨hx, -, hpq⟩ := Twins.agree_steps (hg.plan_rel hs limit) (.start hg) n _ hw (.refl _)
    have hpq := Mirrors.imp hpq (hnames hx)
    exact ⟨hpq, hpq.diagnostics_rel (hg.imp (hnames hw))⟩
  · obtain ⟨hx, -, hended⟩ := Twins.agree_analyze hg hs limits calledOff _ hw (.refl _)
    dsimp only at hended
    generalize ((g.analyze s limits calledOff : InUniverse _).run u).1 = o,
      ((k.analyze s' limits calledOff : InUniverse _).run v).1 = o' at hended ⊢
    cases hended with
    | ok hpq => exact .ok (hpq.imp (hnames hx))
    | error e => exact .error e

/-- A body with a parameter that is a function of one number. -/
def taking (name : String) : Graph where
  name := "f"
  nodes := #[{ op := .entry, succs := [1] }, { op := .exit, succs := [] }]
  entry := 0
  exit := 1
  params := [{ name := "g", type := Session.ofNumber name }]
  returns := none
  declared := { bindings := [("g", Session.ofNumber name)] }

/-- A universe in which such a function was met under this parameter name. -/
def met (name : String) : Universe :=
  ((Universe.Call.function [{ name, type := .number }] .string).serve.run (.new 0)).2

theorem met_history (name : String) : (met name).History := by
  refine .call (.new 0) _ (fun t ht => ?_) (by simp [Universe.Call.names])
  refine Universe.lookup?_new.2 ⟨?_, rfl⟩
  rcases (by simpa [Universe.Call.types] using ht : t = .number ∨ t = .string) with rfl | rfl <;>
    simp [atoms]

theorem met_eq (name : String) : met name = Universe.holding (atoms ++ [Session.ofNumber name]) := by
  show ((Universe.holding atoms).intern (Session.ofNumber name)).2 = _
  have hnew : (Session.ofNumber name).key ∉ atoms.map Ty.key := by
    show (Session.ofNumber "").key ∉ atoms.map Ty.key
    decide
  rw [Universe.intern_of_not_mem (by decide) hnew]

theorem met_keeps (name : String) : (met name).Keeps (Session.ofNumber name) := by
  have hnodup : ((atoms ++ [Session.ofNumber name]).map Ty.key).Nodup := by
    show ((atoms ++ [Session.ofNumber ""]).map Ty.key).Nodup
    decide
  rw [met_eq]
  exact (Universe.lookup?_holding hnodup).2 ⟨by simp, rfl⟩

/-- Where one universe met the function as `(x: number) => string` and the other as `(y: number) => string`,
the parameter is printed differently and nothing else. -/
theorem met_steps_alike :
    (met "x").Keeps (Session.ofNumber "x") ∧ (met "y").Keeps (Session.ofNumber "y") ∧
      ∀ limit n : Nat, ((met "x").passOver (taking "x") {} limit n).1.Mirrors DifferInNames
        ((met "y").passOver (taking "y") {} limit n).1 := by
  have halike : (Twins.mk (met "x") (met "y")).Alike (Session.ofNumber "x") (Session.ofNumber "y") :=
    ⟨met_keeps "x", met_keeps "y", rfl⟩
  have hclasses : (met "x").classes.Mirrors SameKey (met "y").classes := by
    rw [met_eq, met_eq]
    exact fun _ => .none
  have hgraph : (taking "x").Mirrors (Twins.mk (met "x") (met "y")).Alike (taking "y") :=
    ⟨rfl, .cons ⟨.entry, rfl⟩ (.cons ⟨.exit, rfl⟩ .nil), rfl, rfl, .cons ⟨rfl, halike, rfl, rfl⟩ .nil, .none,
      .cons ⟨rfl, halike⟩ .nil⟩
  have hnothing : ({} : Surroundings).Mirrors (Twins.mk (met "x") (met "y")).Alike {} := ⟨.nil, .nil⟩
  have hboth := steps_alike (met_history "x") (met_history "y") hclasses hgraph hnothing
  exact ⟨met_keeps "x", met_keeps "y", fun limit n => (hboth.1 limit n).1⟩

/-! ### A question that was asked too early -/

open Universe

/-- `function f(dog: Dog) { let x: Animal = dog }` -/
def adopting : Graph where
  name := "f"
  nodes := #[{ op := .entry, succs := [1] },
    { op := .assign "x" (.var "dog") true (some (tagged "Animal")), succs := [2] }, { op := .exit, succs := [] }]
  entry := 0
  exit := 2
  params := [{ name := "dog", type := tagged "Dog" }]
  returns := none
  declared := { bindings := [("dog", tagged "Dog"), ("x", tagged "Animal")] }

/-- The body as it would be written down. -/
def adoptingSketch : Sketch where
  name := "f"
  nodes := [some { id := 0, draft := .op .entry, succs := [1] },
    some { id := 1, draft := .op (.assign "x" (.var "dog") true (some (tagged "Animal"))), succs := [2] },
    some { id := 2, draft := .op .exit, succs := [] }]
  entry := 0
  exit := 2
  params := [{ name := "dog", type := tagged "Dog" }]
  returns := none
  declared := { bindings := [("dog", tagged "Dog"), ("x", tagged "Animal")] }

theorem adopting_order : adopting.reversePostorder = [0, 1, 2] := by
  simp [reversePostorder, search, adopting, size, succs]

/-- The dog as it comes in. -/
def withDog : Env := { bindings := [("dog", tagged "Dog")] }

/-- The dog, and what `x` is. -/
def adopted (t : Ty) : Env := { bindings := [("dog", tagged "Dog"), ("x", t)] }

/-- The states of a pass over the body. -/
def adoptingStage (t : Ty) : Nat → Table
  | 0 => Table.start adopting
  | n + 1 =>
    let T := adoptingStage t n
    match n with
    | 0 => T.entering 0 withDog 1 [((0, 0), withDog)] [1]
    | 1 => T.entering 1 withDog 1 [((1, 0), adopted t)] [2]
    | _ => T.entering 2 (adopted t) 1 [] []

/-- The pass is as good as the assignment in it. -/
theorem run_adopting {u w : Universe} {t : Ty} {o : Outcome} (limit : Nat)
    (ho : (transfer {} none adopting.declared (.assign "x" (.var "dog") true (some (tagged "Animal"))) withDog :
      InUniverse Outcome).run u = (o, w))
    (houts : o.outs = [some (adopted t)]) (hdeclared : o.declared = adopting.declared) :
    (Table.run (adopting.plan {} limit) 3 (adoptingStage t 0)).run u = (some (adoptingStage t 3), w) := by
  have hrecord :
      { adoptingStage t 1 with waiting := (adoptingStage t 1).waiting.filter (· != 1) }.record 1 [2] withDog o =
        adoptingStage t 2 :=
    Table.record_congr houts hdeclared 1 [2] withDog
  rw [Graph.plan, adopting_order]
  calc
    _ = (Table.run _ 2 (adoptingStage t 1)).run u := Table.run_enter 0 withDog _ rfl rfl rfl rfl rfl rfl
    _ = (Table.run _ 1 (adoptingStage t 2)).run w :=
      Table.run_enter 1 withDog _ rfl rfl rfl rfl ho hrecord
    _ = (Table.run _ 0 (adoptingStage t 3)).run w := Table.run_enter 2 (adopted t) _ rfl rfl rfl rfl rfl rfl
    _ = (some (adoptingStage t 3), w) := rfl

/-- A dog that fits becomes the animal; one that is taken not to fit is reported, and forgotten. -/
theorem transfer_adopting : (transfer {} none adopting.declared
      (.assign "x" (.var "dog") true (some (tagged "Animal"))) withDog : InUniverse Outcome) = (do
    if ← TypeStore.subtype (tagged "Dog") (tagged "Animal") then
      return { outs := [some (withDog.bind "x" (← TypeStore.meet (tagged "Dog") (tagged "Animal")))]
               declared := adopting.declared }
    else
      return { outs := [some (withDog.bind "x" (tagged "Animal"))], declared := adopting.declared
               findings := [.assignability "x" (tagged "Dog") (tagged "Animal")] }) := by
  have hdog : (valueType {} adopting.declared withDog (.var "dog") : InUniverse Ty) = pure (tagged "Dog") := rfl
  have hdeclared : adopting.declared.find? "x" = some (tagged "Animal") := rfl
  rw [transfer, hdog, pure_bind, assign, if_neg (by simp)]
  dsimp only
  rw [pure_bind]
  simp only [hdeclared, bind_assoc]
  refine bind_congr fun fits => ?_
  cases fits with
  | true => simp
  | false => simp

/-- The universe that requests leave. -/
def leaving (u : Universe) (rs : List Request) : Universe := rs.foldl (fun u r => (r.serve.run u).2) u

/-- The classes are declared after the question was asked. -/
def tooEarly : List Request := [tagging "Animal", tagging "Dog", asking] ++ declaring

/-- The question was never asked. -/
def inTime : List Request := [tagging "Animal", tagging "Dog"] ++ declaring

theorem leaving_tooEarly : leaving (.new 1) tooEarly = keeping pets petClasses heard := by
  show leaving (keeping atoms {} { capacity := 1 }) tooEarly = _
  rw [tooEarly, declaring, leaving]
  simp only [List.cons_append, List.nil_append, List.foldl, serve_tagging_animal, serve_tagging_dog,
    run_asking_unheard, serve_declare_animal, serve_declare_dog]

theorem leaving_inTime : leaving (.new 1) inTime = keeping pets petClasses { capacity := 1 } := by
  show leaving (keeping atoms {} { capacity := 1 }) inTime = _
  rw [inTime, declaring, leaving]
  simp only [List.cons_append, List.nil_append, List.foldl, serve_tagging_animal, serve_tagging_dog,
    serve_declare_animal, serve_declare_dog]

theorem pets_nodup : (pets.map Ty.key).Nodup := by decide

/-- A new shape leaves a universe sound. -/
theorem sound_tagged {ts : List Ty} {classes h : Hierarchy} {memory : Memory} {tag : String}
    (hu : (keeping ts classes memory).Sound h) (hword : Text.IsWord tag) (hts : (ts.map Ty.key).Nodup)
    (hnew : (tagged tag).key ∉ ts.map Ty.key) : (keeping (ts ++ [tagged tag]) classes memory).Sound h := by
  have hname : ∀ p ∈ [({ name := "name", type := .string } : Property Ty)], p.name.IsWord := by decide
  have hmade := (yields_object (h := h) (u := keeping ts classes memory) hword hname
    (.cons ⟨rfl, stands_atom hu (by simp [atoms]), rfl, rfl⟩ .nil) _ hu (.refl h _)).1
  have hrun : ((TypeStore.object tag [{ name := "name", type := .string }] : InUniverse Ty).run
      (keeping ts classes memory)).2 = keeping (ts ++ [tagged tag]) classes memory :=
    congrArg Prod.snd (intern_keeping hts hnew)
  rwa [hrun] at hmade

theorem sound_inTime : (keeping pets petClasses { capacity := 1 }).Sound petClasses := by
  have hatoms : (keeping atoms {} { capacity := 1 }).Sound {} := sound_new 1
  have hpets : (keeping pets {} { capacity := 1 }).Sound {} :=
    sound_tagged (sound_tagged hatoms (by decide) (by decide) (by decide)) (by decide) (by decide) (by decide)
  have hanimal : (keeping pets animalClass { capacity := 1 }).Sound animalClass :=
    hpets.declare (c := ⟨"Animal", [], none⟩) rfl (by simp) (Memory.right_of_empty 1)
  exact hanimal.declare (c := ⟨"Dog", ["Animal"], none⟩) rfl (by simp) (Memory.right_of_empty 1)

/-- In time, the dog fits. -/
theorem transfer_inTime : ∃ o w, (transfer {} none adopting.declared
      (.assign "x" (.var "dog") true (some (tagged "Animal"))) withDog : InUniverse Outcome).run
        (keeping pets petClasses { capacity := 1 }) = (o, w) ∧
      o.outs = [some (adopted (tagged "Dog"))] ∧ o.declared = adopting.declared := by
  have hsound := sound_inTime
  have hkeeps {t : Ty} (ht : t ∈ pets) : (keeping pets petClasses { capacity := 1 }).Keeps t :=
    (lookup?_keeping pets_nodup).2 ⟨ht, rfl⟩
  have hdog := hsound.stands (hkeeps (show tagged "Dog" ∈ pets by simp [pets]))
  have hanimal := hsound.stands (hkeeps (show tagged "Animal" ∈ pets by simp [pets]))
  have hfits : petClasses.subtype (tagged "Dog") (tagged "Animal") = true := by with_unfolding_all rfl
  have hmeet : petClasses.meet (tagged "Dog") (tagged "Animal") = tagged "Dog" := by with_unfolding_all rfl
  have hyields : (keeping pets petClasses { capacity := 1 }).Yields petClasses (transfer {} none adopting.declared
      (.assign "x" (.var "dog") true (some (tagged "Animal"))) withDog) fun _ o =>
        o.outs = [some (adopted (tagged "Dog"))] ∧ o.declared = adopting.declared := by
    rw [transfer_adopting]
    refine (says_subtype hdog hanimal).bind ?_
    rw [if_pos hfits]
    refine (yields_meet hdog hanimal).bind fun v t _ huv ht => .pure fun _ _ _ => ⟨?_, rfl⟩
    rw [hmeet] at ht
    obtain rfl : t = tagged "Dog" := Option.some.inj (ht.lookup?.symm.trans (hdog.grows huv).lookup?)
    rfl
  obtain ⟨-, -, houts, hdeclared⟩ := hyields _ hsound (.refl _ _)
  exact ⟨_, _, rfl, houts, hdeclared⟩

/-- Too early, it is taken not to. -/
theorem transfer_tooEarly : ∃ o w, (transfer {} none adopting.declared
      (.assign "x" (.var "dog") true (some (tagged "Animal"))) withDog : InUniverse Outcome).run
        (keeping pets petClasses heard) = (o, w) ∧
      o.outs = [some (adopted (tagged "Animal"))] ∧ o.declared = adopting.declared := by
  obtain ⟨n, hn⟩ := exists_subtypeStep (tagged "Dog") (tagged "Animal")
  rw [transfer_adopting, StateT.run_bind,
    hn (run_subtypeStep_hit _ tagged_key_ne (by simp [keeping, heard_eq.1]) heard_eq.2) rfl rfl]
  exact ⟨_, _, rfl, rfl, rfl⟩

/-- A run that ends within some steps is where those steps come out. -/
theorem passOver_of_run {u : Universe} {g : Graph} {s : Surroundings} {limit n : Nat} {p : Moment}
    (hrun : (Moment.start g u).run (g.plan s limit) n = some p) : (u.passOver g s limit n).1 = p.toPass := by
  rw [Moment.run, Moment.start, run_eq_steps, StateT.run_bind] at hrun
  dsimp only [bind] at hrun
  rw [passOver]
  generalize (Pass.steps (g.plan s limit) n (Pass.start g) : InUniverse Pass).run u = after at hrun ⊢
  obtain ⟨q, v⟩ := after
  cases hnext : q.next? (g.plan s limit) with
  | none =>
    simp only [hnext] at hrun
    obtain rfl := Option.some.inj hrun
    rfl
  | some id =>
    simp only [hnext] at hrun
    cases hrun

/-- What comes of the pass depends on what the universe takes the dog for. -/
theorem entered_adopting {u w : Universe} {t : Ty} {o : Outcome}
    (ho : (transfer {} none adopting.declared (.assign "x" (.var "dog") true (some (tagged "Animal"))) withDog :
      InUniverse Outcome).run u = (o, w))
    (houts : o.outs = [some (adopted t)]) (hdeclared : o.declared = adopting.declared) :
    (u.passOver adopting {} 2 3).1.entered[2]? = some (adopted t) := by
  obtain ⟨p, hrun, hshows, -⟩ := Table.Shows.run (.start adopting) (run_adopting 2 ho houts hdeclared)
  rw [passOver_of_run hrun]
  exact hshows.entered 2

/-- **A question that was asked too early stays answered**: the two universes have the same classes and types, and
yet `x` is an animal after the body in the one and a dog in the other, since a universe goes on remembering that a
dog is no animal after it was declared to be one. -/
theorem stale_steps_differ :
    adoptingSketch.check = .ok adopting ∧
      (leaving (.new 1) tooEarly).classes = (leaving (.new 1) inTime).classes ∧
      (∀ t ∈ adopting.types, (leaving (.new 1) tooEarly).Keeps t ∧ (leaving (.new 1) inTime).Keeps t) ∧
      ((leaving (.new 1) tooEarly).passOver adopting {} 2 3).1.entered[2]? = some (adopted (tagged "Animal")) ∧
      ((leaving (.new 1) inTime).passOver adopting {} 2 3).1.entered[2]? = some (adopted (tagged "Dog")) ∧
      ¬ ((leaving (.new 1) tooEarly).passOver adopting {} 2 3).1.Mirrors DifferInNames
        ((leaving (.new 1) inTime).passOver adopting {} 2 3).1 := by
  rw [leaving_tooEarly, leaving_inTime]
  obtain ⟨o, w, ho, houts, hdeclared⟩ := transfer_tooEarly
  obtain ⟨o', w', ho', houts', hdeclared'⟩ := transfer_inTime
  have hearly := entered_adopting ho houts hdeclared
  have htime := entered_adopting ho' houts' hdeclared'
  refine ⟨rfl, rfl, fun t ht => ?_, hearly, htime, fun hmirrors => ?_⟩
  · have hmem : t ∈ pets := by
      rcases (by simpa [adopting, Graph.types, Op.types, Value.types, Env.types] using ht :
        t = tagged "Dog" ∨ t = tagged "Animal") with rfl | rfl <;> simp [pets]
    exact ⟨(lookup?_keeping pets_nodup).2 ⟨hmem, rfl⟩, (lookup?_keeping pets_nodup).2 ⟨hmem, rfl⟩⟩
  · have hrel := hmirrors.entered 2
    rw [hearly, htime] at hrel
    cases hrel with
    | some henvs =>
      cases henvs with
      | cons _ hrest =>
        cases hrest with
        | cons hx _ => exact absurd hx.2.1 (by decide)

end Graph.Pass
end FlowTyping
