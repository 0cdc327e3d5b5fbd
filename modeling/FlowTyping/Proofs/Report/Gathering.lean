import FlowTyping.Proofs.Diagnostic.Bag
import FlowTyping.Report.Basic
import FlowTyping.Universe
import Mathlib.Data.List.Perm.Basic
import Mathlib.Logic.Relation

/-!
# Gathering the findings of a program

The bodies of a program can be analysed at the same time. When the analysis of a body is done, its findings are
added to those of the others in one go, so in the end the findings are there body by body, and the bodies are in
any order. That order does not show in a report: the findings of a body are at places of its own and come in the
order of its nodes.

* **`BodyReport.Analysed`** — what became of a body is what an analysis of it comes to;
  **`BodyReport.Analysed.located`**, **`BodyReport.diagnostics_ordered`** say where its findings are.
* **`Gathering.Step`** — the findings of one body are added; **`Gathering.items_of_steps`** says what is there
  after any number of steps.
* **`Report.gathering_independent`** — what is gathered, whatever the order is.
-/

namespace FlowTyping

open FlowTyping.Graph (Pass PassError Limits)
open Relation

/-! ## The findings of a body -/

section Body

variable {s : Surroundings} {limits : Limits} {calledOff : Bool} {b : Body} {r : BodyReport}

/-- What becomes of a body if the pass over it ends in this state, or does not settle. A body that is too large
and one whose graph is flawed are not looked at. -/
def Body.outcome (b : Body) (limits : Limits) (calledOff : Bool) (ended : Option Pass) : Except PassError Pass :=
  match b with
  | .graph g =>
    if limits.exceededBy g.size then .error (.tooLarge g.name g.entry g.size limits.maxNodes)
    else if calledOff then .error .calledOff
    else
      match ended with
      | some p => .ok p
      | none => .error (.unsettled g.name)
  | .flawed sketch e =>
    if limits.exceededBy sketch.nodes.length then
      .error (.tooLarge sketch.name sketch.entry sketch.nodes.length limits.maxNodes)
    else .error (.flaw e)

/-- The analysis of a body has such an outcome, in every universe. -/
theorem Body.analyze_outcome (b : Body) (s : Surroundings) (limits : Limits) (calledOff : Bool) (u : Universe) :
    ∃ ended, ((b.analyze s limits calledOff : InUniverse (Except PassError Pass)).run u).1 =
      b.outcome limits calledOff ended := by
  cases b with
  | graph g =>
    simp only [analyze, Graph.analyze, outcome]
    split
    · exact ⟨none, rfl⟩
    · split
      · exact ⟨none, rfl⟩
      · rw [StateT.run_bind]
        generalize (Pass.run (g.plan s limits.maxLoopVisits) Graph.stepAllowance (Pass.start g) :
          InUniverse (Option Pass)).run u = done
        obtain ⟨ended, v⟩ := done
        exact ⟨ended, by cases ended <;> rfl⟩
  | flawed sketch e =>
    simp only [analyze, outcome]
    split <;> exact ⟨none, rfl⟩

/-- A body that is too large is noted under its own name. -/
theorem Body.outcome_tooLarge {ended : Option Pass} {function : String} {entry nodes limit : Int}
    (hb : b.outcome limits calledOff ended = .error (.tooLarge function entry nodes limit)) : function = b.name := by
  cases b with
  | graph g =>
    simp only [outcome] at hb
    split at hb
    · cases hb
      rfl
    · split at hb
      · cases hb
      · cases ended <;> cases hb
  | flawed sketch e =>
    simp only [outcome] at hb
    split at hb
    · cases hb
      rfl
    · cases hb

/-- What became of a body is what an analysis of it comes to. Other bodies may be analysed at the same time, and
they share the universe, so nothing is said of the state in which a pass ended. -/
def BodyReport.Analysed (limits : Limits) (calledOff : Bool) (r : BodyReport) : Prop :=
  ∃ ended, r.outcome = r.body.outcome limits calledOff ended

/-- The findings of a body are at its nodes. -/
def BodyReport.Located (r : BodyReport) : Prop := ∀ d ∈ r.diagnostics, d.location.function = r.body.name

theorem BodyReport.Analysed.located (hr : r.Analysed limits calledOff) : r.Located := by
  intro d hd
  obtain ⟨ended, hr⟩ := hr
  obtain ⟨b, outcome⟩ := r
  cases outcome with
  | ok p =>
    cases b with
    | graph g =>
      simp only [diagnostics, Pass.diagnostics, List.mem_flatMap, List.mem_map] at hd
      obtain ⟨id, -, finding, -, rfl⟩ := hd
      rfl
    | flawed sketch e => simp [diagnostics] at hd
  | error e =>
    cases e with
    | tooLarge function entry nodes limit =>
      obtain rfl := List.mem_singleton.1 hd
      exact Body.outcome_tooLarge hr.symm
    | flaw | calledOff | unsettled => simp [diagnostics, PassError.diagnostics] at hd

/-- The findings of a body come in the order of its nodes. -/
theorem BodyReport.diagnostics_ordered (r : BodyReport) :
    r.diagnostics.Pairwise fun d e => d.location.node ≤ e.location.node := by
  obtain ⟨b, outcome⟩ := r
  cases outcome with
  | ok p =>
    cases b with
    | graph g =>
      refine List.pairwise_flatMap.2 ⟨fun id _ => ?_, ?_⟩
      · refine List.pairwise_map.2 (List.pairwise_of_forall fun _ _ => Int.le_refl _)
      · refine List.pairwise_lt_range.imp fun hlt d hd e he => ?_
        obtain ⟨finding, -, rfl⟩ := List.mem_map.1 hd
        obtain ⟨finding', -, rfl⟩ := List.mem_map.1 he
        exact Int.ofNat_le.2 (Nat.le_of_lt hlt)
    | flawed sketch e => exact .nil
  | error e => cases e <;> simp [diagnostics, PassError.diagnostics]

/-- Where bodies are analysed one after the other, each report is what the analysis of its body came to. -/
theorem Report.analyzeBodies_analysed {bodies : List Body} {u : Universe} {reports : List BodyReport}
    (hrun : ((analyzeBodies s limits calledOff bodies : InUniverse (Except PassError (List BodyReport))).run u).1 =
      .ok reports) :
    reports.map (·.body) = bodies ∧ ∀ r ∈ reports, r.Analysed limits calledOff := by
  induction bodies generalizing u reports with
  | nil =>
    obtain rfl : [] = reports := by injection hrun
    simp
  | cons b bodies ih =>
    rw [analyzeBodies, StateT.run_bind] at hrun
    generalize hmade : (b.analyze s limits calledOff : InUniverse (Except PassError Pass)).run u = made at hrun
    obtain ⟨outcome, v⟩ := made
    have hgoes : ((do return (← analyzeBodies s limits calledOff bodies).map (⟨b, outcome⟩ :: ·) :
        InUniverse (Except PassError (List BodyReport))).run v).1 = .ok reports := by
      cases outcome with
      | ok p => exact hrun
      | error e =>
        cases e with
        | tooLarge | flaw => exact hrun
        | calledOff | unsettled => cases hrun
    rw [StateT.run_bind] at hgoes
    generalize hrest : (analyzeBodies s limits calledOff bodies :
      InUniverse (Except PassError (List BodyReport))).run v = rest at hgoes
    obtain ⟨rest, w⟩ := rest
    cases rest with
    | error e => cases hgoes
    | ok rest =>
      obtain rfl : ⟨b, outcome⟩ :: rest = reports := by injection hgoes
      obtain ⟨hbodies, hanalysed⟩ := ih (congrArg Prod.fst hrest)
      refine ⟨by simp [hbodies], fun r hr => ?_⟩
      rcases List.mem_cons.1 hr with rfl | hr
      · obtain ⟨ended, hended⟩ := b.analyze_outcome s limits calledOff u
        exact ⟨ended, (congrArg Prod.fst hmade).symm.trans hended⟩
      · exact hanalysed r hr

/-- The report on a program has its bodies, each with what its analysis came to. -/
theorem Report.analyze_analysed {runId path : String} {strict : Bool} {bodies : List Body} {u : Universe}
    {report : Report}
    (hrun : ((analyze runId path strict s limits calledOff bodies : InUniverse (Except PassError Report)).run u).1 =
      .ok report) :
    report.bodies.map (·.body) = bodies ∧ ∀ r ∈ report.bodies, r.Analysed limits calledOff := by
  rw [analyze, StateT.run_bind] at hrun
  generalize hmade : (analyzeBodies s limits calledOff bodies :
    InUniverse (Except PassError (List BodyReport))).run u = made at hrun
  obtain ⟨made, v⟩ := made
  cases made with
  | error e => cases hrun
  | ok reports =>
    obtain rfl : { runId, path, strict, bodies := reports } = report := by injection hrun
    exact analyzeBodies_analysed (congrArg Prod.fst hmade)

end Body

/-! ## Findings at one place -/

section Places

variable {rs qs : List BodyReport} {r : BodyReport}

theorem BodyReport.Located.filter_eq_nil (hr : r.Located) {l : Location} (hl : l.function ≠ r.body.name) :
    r.diagnostics.filter (·.location = l) = [] := by
  refine List.filter_eq_nil_iff.2 fun d hd hat => hl ?_
  rw [← hr d hd, of_decide_eq_true hat]

/-- The findings at one place are those of one body, so the order of the bodies makes no difference. -/
theorem filter_flatMap_of_perm (hperm : rs.Perm qs) (hnames : (rs.map (·.body.name)).Nodup)
    (hrs : ∀ r ∈ rs, r.Located) (l : Location) :
    (rs.flatMap BodyReport.diagnostics).filter (·.location = l) =
      (qs.flatMap BodyReport.diagnostics).filter (·.location = l) := by
  induction hperm with
  | nil => rfl
  | cons r _ ih =>
    rw [List.flatMap_cons, List.flatMap_cons, List.filter_append, List.filter_append,
      ih (List.nodup_cons.1 hnames).2 fun q hq => hrs q (List.mem_cons_of_mem _ hq)]
  | swap r q rs =>
    have hne : r.body.name ≠ q.body.name := by
      intro heq
      simp [heq] at hnames
    simp only [List.flatMap_cons, List.filter_append]
    -- the place is in one of the two bodies at most, and the other has nothing there
    by_cases hl : l.function = r.body.name
    · rw [(hrs q (by simp)).filter_eq_nil (hl ▸ hne)]
      rfl
    · rw [(hrs r (by simp)).filter_eq_nil hl]
      rfl
  | trans hperm _ ih ih' =>
    rw [ih hnames hrs]
    exact ih' ((hperm.map _).nodup_iff.1 hnames) fun r hr => hrs r (hperm.mem_iff.2 hr)

/-- The findings at a place in a body are those that the body has there. -/
theorem filter_flatMap_of_mem (hr : r ∈ rs) (hnames : (rs.map (·.body.name)).Nodup)
    (hrs : ∀ r ∈ rs, r.Located) {l : Location} (hl : l.function = r.body.name) :
    (rs.flatMap BodyReport.diagnostics).filter (·.location = l) = r.diagnostics.filter (·.location = l) := by
  obtain ⟨before, after, rfl⟩ := List.append_of_mem hr
  -- the body may as well be the first
  have hfirst : (before ++ r :: after).Perm (r :: (before ++ after)) := List.perm_middle
  have hother (q : BodyReport) (hq : q ∈ before ++ after) : l.function ≠ q.body.name := by
    have hnodup := (hfirst.map fun r : BodyReport => r.body.name).nodup_iff.1 hnames
    rw [hl]
    exact fun heq => (List.nodup_cons.1 hnodup).1 (List.mem_map.2 ⟨q, hq, heq.symm⟩)
  rw [filter_flatMap_of_perm hfirst hnames hrs, List.flatMap_cons, List.filter_append]
  refine (List.append_right_eq_self ..).2 (List.filter_eq_nil_iff.2 fun d hd hat => ?_)
  obtain ⟨q, hq, hd⟩ := List.mem_flatMap.1 hd
  have hnone := (hrs q (hfirst.mem_iff.2 (List.mem_cons_of_mem _ hq))).filter_eq_nil (hother q hq)
  exact List.filter_eq_nil_iff.1 hnone d hd hat

/-- The findings of a body are in order. -/
theorem BodyReport.Located.inOrder (hr : r.Located) :
    r.diagnostics.Pairwise fun d e => Bag.inOrder d e = true :=
  r.diagnostics_ordered.imp_of_mem fun hd he hle =>
    Bag.inOrder_iff.2 (.inr ⟨(hr _ hd).trans (hr _ he).symm, hle⟩)

end Places

/-! ## Gathering -/

/-- The findings that were added so far, and the bodies whose findings were not. -/
structure Gathering where
  bag : Bag := {}
  pending : List BodyReport

namespace Gathering

variable {g g' : Gathering} {reports : List BodyReport}

/-- The analysis of some body is done, and its findings are added in one go. -/
inductive Step : Gathering → Gathering → Prop where
  | add (bag : Bag) (before after : List BodyReport) (r : BodyReport) :
    Step { bag, pending := before ++ r :: after } { bag := bag.add r.diagnostics, pending := before ++ after }

/-- The findings of some of the bodies were added, in some order. -/
def Of (reports : List BodyReport) (g : Gathering) : Prop :=
  ∃ added : List BodyReport, (added ++ g.pending).Perm reports ∧ g.bag.items = added.flatMap BodyReport.diagnostics

theorem Step.of (hg : g.Of reports) (hs : Step g g') : g'.Of reports := by
  cases hs with
  | add bag before after r =>
    obtain ⟨added, hperm, hitems⟩ := hg
    refine ⟨added ++ [r], ?_, ?_⟩
    · rw [List.append_assoc, List.singleton_append]
      exact (List.perm_middle.symm.append_left added).trans hperm
    · show bag.items ++ r.diagnostics = _
      rw [show bag.items = _ from hitems, List.flatMap_append, List.flatMap_singleton]

/-- **What was added after any number of steps** are the findings of some bodies, one after the other. -/
theorem items_of_steps (hg : ReflTransGen Step { pending := reports } g) : g.Of reports := by
  induction hg with
  | refl => exact ⟨[], .refl _, rfl⟩
  | tail _ hs ih => exact hs.of ih

/-- In the end the findings of all bodies were added, in some order. -/
theorem items_of_done {bag : Bag} (hg : ReflTransGen Step { pending := reports } { bag, pending := [] }) :
    ∃ added : List BodyReport, added.Perm reports ∧ bag.items = added.flatMap BodyReport.diagnostics := by
  obtain ⟨added, hperm, hitems⟩ := items_of_steps hg
  exact ⟨added, by simpa using hperm, hitems⟩

end Gathering

namespace Report

/-- **What is gathered does not depend on the order.** Let the bodies of a program have names of their own, and
let the findings of each be added in one go, in any order. Then they are listed as they are for the bodies in the
order of the program. The list has just what was added, by function and by node. What it has in a function is
what the pass over that function lists, and what it has at a node is as it was added. The numbers of findings of
each severity, and whether they make the analysis fail, are the same too. -/
theorem gathering_independent {limits : Limits} {calledOff : Bool} {report : Report}
    (hnames : (report.bodies.map (·.body.name)).Nodup)
    (hanalysed : ∀ r ∈ report.bodies, r.Analysed limits calledOff) {bag : Bag}
    (hrun : ReflTransGen Gathering.Step { pending := report.bodies } { bag, pending := [] }) :
    bag.all = report.bag.all ∧
      bag.all.Perm (report.bodies.flatMap BodyReport.diagnostics) ∧
      (bag.all.Pairwise fun d e => d.location.function < e.location.function ∨
        d.location.function = e.location.function ∧ d.location.node ≤ e.location.node) ∧
      (∀ r ∈ report.bodies, bag.all.filter (·.location.function = r.body.name) = r.diagnostics) ∧
      (∀ l : Location, bag.all.filter (·.location = l) = bag.items.filter (·.location = l)) ∧
      (∀ severity, bag.count severity = report.bag.count severity) ∧
      ∀ strict, bag.failed strict = report.bag.failed strict := by
  obtain ⟨added, hperm, hitems⟩ := Gathering.items_of_done hrun
  have hlocated (r : BodyReport) (hr : r ∈ report.bodies) : r.Located := (hanalysed r hr).located
  -- one body has the findings of a location, and its own are added in one go
  have hat (l : Location) : bag.items.filter (·.location = l) = report.bag.items.filter (·.location = l) := by
    rw [hitems]
    exact (filter_flatMap_of_perm hperm.symm hnames hlocated l).symm
  have hcount (severity : Severity) : bag.count severity = report.bag.count severity := by
    unfold Bag.count
    rw [hitems]
    exact (hperm.flatMap_right _).countP_eq _
  refine ⟨Bag.all_eq_of_filter hat, ?_, bag.all_inOrder.imp Bag.inOrder_iff.1, fun r hr => ?_, bag.filter_all,
    hcount, fun strict => ?_⟩
  · have hadded : bag.items.Perm (report.bodies.flatMap BodyReport.diagnostics) := by
      rw [hitems]
      exact hperm.flatMap_right _
    exact bag.all_perm.trans hadded
  · -- both are in order, so they are compared place by place
    refine Bag.eq_of_filter (bag.all_inOrder.filter _) (hlocated r hr).inOrder fun l => ?_
    by_cases hl : l.function = r.body.name
    · have hpart (d : Diagnostic) : (decide (d.location = l) && decide (d.location.function = r.body.name)) =
          decide (d.location = l) := by
        by_cases hd : d.location = l
        · simp [hd, hl]
        · simp [hd]
      simp only [List.filter_filter, hpart]
      rw [bag.filter_all, hat]
      exact filter_flatMap_of_mem hr hnames hlocated hl
    · rw [(hlocated r hr).filter_eq_nil hl]
      refine List.filter_eq_nil_iff.2 fun d hd hat => hl ?_
      obtain rfl := of_decide_eq_true hat
      exact of_decide_eq_true (List.mem_filter.1 hd).2
  · unfold Bag.failed
    rw [hcount, hcount]

/-- A body with nothing in it. Its two nodes are too many where only one is allowed. -/
def oversized (name : String) : BodyReport where
  body := .graph
    { name, nodes := #[{ op := .entry, succs := [1] }, { op := .exit, succs := [] }], entry := 0, exit := 1,
      params := [], returns := none, declared := {} }
  outcome := .error (.tooLarge name 0 2 1)

/-- The report on two such bodies. -/
def overLimit : Report where
  runId := ""
  path := ""
  strict := false
  bodies := [oversized "g", oversized "f"]

/-- What is gathered when the body that comes second is done first. -/
def secondFirst : Bag := (({} : Bag).add (oversized "f").diagnostics).add (oversized "g").diagnostics

/-- The bags of the two orders differ, but what they list does not. -/
theorem secondFirst_all :
    secondFirst.items.map (·.location.function) = ["f", "g"] ∧
      overLimit.bag.items.map (·.location.function) = ["g", "f"] ∧ secondFirst.all = overLimit.bag.all ∧
        (secondFirst.all.filter (·.location.function = "g")).map (·.location.node) = [0] := by
  have hanalysed : ∀ r ∈ overLimit.bodies, r.Analysed { maxNodes := 1 } false := by
    intro r hr
    obtain rfl | rfl : r = oversized "g" ∨ r = oversized "f" := by simpa [overLimit] using hr
    · exact ⟨none, rfl⟩
    · exact ⟨none, rfl⟩
  have hrun : ReflTransGen Gathering.Step { pending := overLimit.bodies } { bag := secondFirst, pending := [] } :=
    .tail (.single (.add {} [oversized "g"] [] (oversized "f"))) (.add _ [] [] (oversized "g"))
  obtain ⟨hall, -, -, hbody, -⟩ := gathering_independent (by decide) hanalysed hrun
  refine ⟨rfl, rfl, hall, ?_⟩
  rw [show "g" = (oversized "g").body.name from rfl, hbody _ (by simp [overLimit])]
  rfl

end Report
end FlowTyping
