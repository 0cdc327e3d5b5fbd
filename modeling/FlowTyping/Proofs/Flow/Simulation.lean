import FlowTyping.Proofs.Flow.Closing
import FlowTyping.Proofs.Flow.Execution

/-!
# Graphs run as their bodies do

Laying out a statement and running it go hand in hand. A walk that comes to a statement by one of the
slots that were pending there goes on as the statement runs: to a slot that is pending after it, to one
that leaves the innermost loop or switch, to the head of the innermost loop, or to its end.

* **`Builder.Within`** — the nodes and links under construction are those of the finished graph.
* **`Graph.Matches`** — a walk comes to where the outcome of a block says, with the same events.
* **`Stmt.lay_follows`** — so it is for every statement, whatever is pending and whatever is around.
* **`Graph.ofBody_runs_alike`** — the graph of a body has the runs of the body.
-/

namespace FlowTyping

open Builder

/-! ## Walks -/

namespace Graph

variable {g : Graph} {o : Oracle} {w : Walk} {id : Nat} {past : List Event}

/-- Where a slot leads. -/
def follow (g : Graph) (e : Exit) : Option Nat := (g.succs e.node)[e.slot]?

theorem advance_node {n : Node} (hn : g.nodes[id]? = some n) :
    g.advance o { position := some id, past } =
      { position := (n.op.run o past).1.bind fun slot => g.follow { node := id, slot }
        past := (n.op.run o past).2 } := by
  simp [advance, follow, succs, hn]

theorem advance_past (g : Graph) (o : Oracle) (w : Walk) : w.past <+: (g.advance o w).past := by
  rw [advance]
  split
  · exact List.prefix_rfl
  · rename_i n _
    show w.past <+: (n.op.run o w.past).2
    cases n.op <;> simp [Op.run]

/-- What happened on a walk stays. -/
theorem iterate_past (g : Graph) (o : Oracle) (w : Walk) {i j : Nat} (hij : i ≤ j) :
    ((g.advance o)^[i] w).past <+: ((g.advance o)^[j] w).past := by
  obtain ⟨k, rfl⟩ := Nat.exists_eq_add_of_le' hij
  rw [Function.iterate_add_apply]
  generalize (g.advance o)^[i] w = w'
  clear hij
  induction k generalizing w' with
  | zero => exact List.prefix_rfl
  | succ k ih => exact (advance_past g o w').trans (ih (g.advance o w'))

/-- A walk that came to its end does not go on. -/
theorem iterate_ended {i j : Nat} (hij : i ≤ j) (hw : ((g.advance o)^[i] w).position = none) :
    (g.advance o)^[j] w = (g.advance o)^[i] w := by
  obtain ⟨k, rfl⟩ := Nat.exists_eq_add_of_le' hij
  rw [Function.iterate_add_apply]
  generalize (g.advance o)^[i] w = w' at hw
  refine Function.iterate_fixed ?_ k
  simp [advance, hw]

/-- What happened on a walk happened before its end. -/
theorem past_of_ended {i j : Nat} (hw : ((g.advance o)^[j] w).position = none) :
    ((g.advance o)^[i] w).past <+: ((g.advance o)^[j] w).past := by
  have hlater := iterate_past g o w (Nat.le_max_left i j)
  rwa [iterate_ended (Nat.le_max_right i j) hw] at hlater

end Graph

/-! ## The finished graph -/

/-- The nodes are nodes of the graph, and the slots that are linked lead in the graph where they lead. -/
structure Builder.Within (b : Builder) (g : Graph) : Prop where
  node : ∀ (id : Nat) (n : OpenNode), b.nodes[id]? = some n → ∃ m, g.nodes[id]? = some m ∧ n.draft = .op m.op
  linked : ∀ (e : Exit) (target : Nat), Linked b.nodes e target → g.follow e = some target

section Within

variable {b b' : Builder} {g : Graph} {aside : List Exit} {e : Exit} {op : Op}

theorem Builder.Within.of_grow (hw : b'.Within g) (hg : NodesGrow b.nodes b'.nodes) : b.Within g := by
  refine ⟨fun id n hn => ?_, fun e target hl => hw.linked e target (hg.linked e target hl)⟩
  obtain ⟨n', hn', hd⟩ := hg.draft id n hn
  obtain ⟨m, hm, hd'⟩ := hw.node id n' hn'
  exact ⟨m, hm, hd.symm.trans hd'⟩

theorem Builder.Yields.within (hy : b.Yields g) : b.Within g := by
  refine ⟨fun id n hn => ?_, ?_⟩
  · obtain ⟨m, hm, hd, -⟩ := hy.node id n hn
    exact ⟨m, hm, hd⟩
  · rintro e target ⟨n, hn, hslot⟩
    obtain ⟨m, hm, -, hlinks⟩ := hy.node e.node n hn
    rw [hlinks, List.getElem?_map] at hslot
    obtain ⟨t, ht, heq⟩ := Option.map_eq_some_iff.1 hslot
    rw [Graph.follow, Graph.succs, hm, ht, (List.cons.inj heq).1]

/-- What was pending leads to the node that is placed there. -/
theorem follow_place (ha : Accounts b aside) (hw : (b.place (.op op)).Within g) (he : e ∈ b.pending) :
    g.follow e = some b.nodes.size :=
  hw.linked e _ ((ha.place (.op op)).2.2 e he)

theorem node_place (hw : (b.place (.op op)).Within g) :
    ∃ m, g.nodes[b.nodes.size]? = some m ∧ m.op = op := by
  obtain ⟨m, hm, hd⟩ := hw.node _ _ (getElem?_place b (.op op))
  exact ⟨m, hm, (Draft.op.inj hd).symm⟩

/-- A walk comes to the node that is emitted, by way of a merge node or directly, and does what it does. -/
theorem walk_emit {o : Oracle} (ha : Accounts b aside) (hw : (b.emit (.op op)).Within g)
    (he : e ∈ b.pending) (past : List Event) :
    ∃ k, (g.advance o)^[k] { position := g.follow e, past } =
      { position := (op.run o past).1.bind fun slot => g.follow { node := (b.emit (.op op)).last, slot }
        past := (op.run o past).2 } := by
  rw [emit_eq] at hw ⊢
  split at hw
  · rename_i hlen
    obtain ⟨hacc, -, -⟩ := ha.place (.op .merge)
    have hw' := hw.of_grow (hacc.place (.op op)).2.1
    obtain ⟨m, hm, hmerge⟩ := node_place hw'
    obtain ⟨n, hn, hop⟩ := node_place hw
    have hslot : ({ node := b.nodes.size, slot := 0 } : Exit) ∈ (b.place (.op .merge)).pending := by
      rw [place_eq]
      exact mem_exits.2 ⟨rfl, Nat.one_pos⟩
    have hnext : g.advance o { position := some b.nodes.size, past } =
        { position := some (b.place (.op .merge)).nodes.size, past } := by
      rw [Graph.advance_node hm, hmerge, ← follow_place hacc hw hslot]
      rfl
    refine ⟨2, ?_⟩
    rw [if_pos hlen, follow_place ha hw' he, Function.iterate_succ_apply, hnext, Function.iterate_one,
      Graph.advance_node hn, hop]
    simp [last]
  · rename_i hlen
    obtain ⟨n, hn, hop⟩ := node_place hw
    refine ⟨1, ?_⟩
    rw [if_neg hlen, follow_place ha hw he, Function.iterate_one, Graph.advance_node hn, hop]
    simp [last]

end Within

/-! ## Outcomes -/

/-- Where a walk is when a block that was laid out has an outcome. -/
def Builder.Arrives (g : Graph) (b : Builder) : Ending → Option Nat → Prop
  | .normal, position => ∃ e ∈ b.pending, g.follow e = position
  | .leave, position => ∃ s ∈ b.scopes.head?, ∃ e ∈ s.breaks, g.follow e = position
  | .again, position => ∃ header, b.innermostHeader = some header ∧ position = some header
  | .stopped, position => position = none
  | .running, position => position.isSome = true

/-- The walk comes to where the outcome says, with the same events. If the run is out of fuel, it takes as
many steps as there was fuel. -/
def Graph.Matches (g : Graph) (o : Oracle) (fuel : Nat) (w : Walk) (b : Builder)
    (run : Ending × List Event) : Prop :=
  ∃ k position, (g.advance o)^[k] w = { position, past := run.2 } ∧ b.Arrives g run.1 position ∧
    (run.1 = .running → fuel ≤ k)

namespace Graph.Matches

variable {g : Graph} {o : Oracle} {fuel : Nat} {w w' : Walk} {b b' : Builder} {run : Ending × List Event}

theorem after {k : Nat} (hk : (g.advance o)^[k] w = w') (hm : g.Matches o fuel w' b run) :
    g.Matches o fuel w b run := by
  obtain ⟨j, position, hj, harrives, hrunning⟩ := hm
  refine ⟨j + k, position, by rw [Function.iterate_add_apply, hk, hj], harrives, fun hr => ?_⟩
  have := hrunning hr
  omega

/-- More pending slots, and what growth adds to the scopes, do no harm. -/
theorem mono (hm : g.Matches o fuel w b run) (hp : run.1 = .normal → ∀ e ∈ b.pending, e ∈ b'.pending)
    (hs : ScopesGrow b.scopes b'.scopes) : g.Matches o fuel w b' run := by
  obtain ⟨k, position, hk, harrives, hrunning⟩ := hm
  refine ⟨k, position, hk, ?_, hrunning⟩
  cases hout : run.1 with
  | normal =>
    rw [hout] at harrives
    obtain ⟨e, he, hf⟩ := harrives
    exact ⟨e, hp hout e he, hf⟩
  | leave =>
    rw [hout] at harrives
    obtain ⟨s, hs', e, he, hf⟩ := harrives
    obtain ⟨s', hs', hsub⟩ := hs.breaks_subset hs'
    exact ⟨s', hs', e, hsub he, hf⟩
  | again =>
    rw [hout] at harrives
    obtain ⟨header, hh, hpos⟩ := harrives
    exact ⟨header, hs.header_eq.trans hh, hpos⟩
  | stopped => rw [hout] at harrives; exact harrives
  | running => rw [hout] at harrives; exact harrives

end Graph.Matches

section Statements

variable {o : Oracle} {fuel : Nat} {g : Graph} {b b' : Builder} {aside : List Exit} {e : Exit}
  {past : List Event}

/-! ## Conditions -/

/-- A walk through a condition comes to the slots of what it evaluates to. -/
theorem Cond.lower_follows {c : Cond} {yes no : List Exit} (ha : Accounts b aside)
    (hl : c.lower b = ((yes, no), b')) (hw : b'.Within g) (he : e ∈ b.pending) (past : List Event) :
    ∃ k, ∃ e' ∈ (if (c.eval o past).1 then yes else no),
      (g.advance o)^[k] { position := g.follow e, past } =
        { position := g.follow e', past := (c.eval o past).2 } := by
  induction c generalizing b b' aside yes no e past with
  | test guard =>
    simp only [lower, Prod.mk.injEq] at hl
    obtain ⟨⟨rfl, rfl⟩, rfl⟩ := hl
    have hw : (b.emit (.op (.branch guard))).Within g := ⟨hw.node, hw.linked⟩
    obtain ⟨k, hk⟩ := walk_emit (o := o) ha hw he past
    refine ⟨k, { node := (b.emit (.op (.branch guard))).last, slot := if o.test past guard then 0 else 1 },
      ?_, hk⟩
    cases htest : o.test past guard <;> simp [Cond.eval, htest]
  | not c ih =>
    rcases hc : c.lower b with ⟨⟨cYes, cNo⟩, b₁⟩
    simp only [lower, hc, Prod.mk.injEq] at hl
    obtain ⟨⟨rfl, rfl⟩, rfl⟩ := hl
    obtain ⟨k, e', he', hk⟩ := ih ha hc hw he past
    refine ⟨k, e', ?_, hk⟩
    cases hheld : (c.eval o past).1 <;> simpa [Cond.eval, hheld] using he'
  | and left right ihl ihr =>
    rcases hleft : left.lower b with ⟨⟨leftYes, leftNo⟩, b₁⟩
    rcases hright : right.lower { b₁ with pending := leftYes } with ⟨⟨rightYes, rightNo⟩, b₂⟩
    simp only [lower, hleft, hright, Prod.mk.injEq] at hl
    obtain ⟨⟨rfl, rfl⟩, rfl⟩ := hl
    -- the right side is laid out behind the slots where the left side holds
    obtain ⟨hacc, hgrow⟩ := held_stage ha hleft
    obtain ⟨-, -, hgrow'⟩ := Cond.lower_accounts hacc hright
    obtain ⟨k, e₁, he₁, hk⟩ := ihl ha hleft (hw.of_grow hgrow'.nodes) he past
    rcases hres : left.eval o past with ⟨held, past₁⟩
    rw [hres] at he₁ hk
    cases held with
    -- the right side is not evaluated
    | false => exact ⟨k, e₁, by simpa [Cond.eval, hres] using .inl he₁, by simpa [Cond.eval, hres] using hk⟩
    | true =>
      obtain ⟨j, e₂, he₂, hj⟩ := ihr hacc hright hw he₁ past₁
      refine ⟨j + k, e₂, ?_, ?_⟩
      · cases hheld : (right.eval o past₁).1 <;> simp_all [Cond.eval]
      · rw [Function.iterate_add_apply, hk, hj]
        simp [Cond.eval, hres]
  | or left right ihl ihr =>
    rcases hleft : left.lower b with ⟨⟨leftYes, leftNo⟩, b₁⟩
    rcases hright : right.lower { b₁ with pending := leftNo } with ⟨⟨rightYes, rightNo⟩, b₂⟩
    simp only [lower, hleft, hright, Prod.mk.injEq] at hl
    obtain ⟨⟨rfl, rfl⟩, rfl⟩ := hl
    obtain ⟨hpending, hacc, -⟩ := Cond.lower_accounts ha hleft
    -- the right side is laid out behind the slots where the left side fails
    have hacc := hacc.move leftNo (leftYes ++ aside)
      (by simpa [hpending] using List.perm_append_comm_assoc leftYes leftNo aside)
    obtain ⟨-, -, hgrow⟩ := Cond.lower_accounts hacc hright
    obtain ⟨k, e₁, he₁, hk⟩ := ihl ha hleft (hw.of_grow hgrow.nodes) he past
    rcases hres : left.eval o past with ⟨held, past₁⟩
    rw [hres] at he₁ hk
    cases held with
    | true => exact ⟨k, e₁, by simpa [Cond.eval, hres] using .inl he₁, by simpa [Cond.eval, hres] using hk⟩
    | false =>
      obtain ⟨j, e₂, he₂, hj⟩ := ihr hacc hright hw he₁ past₁
      refine ⟨j + k, e₂, ?_, ?_⟩
      · cases hheld : (right.eval o past₁).1 <;> simp_all [Cond.eval]
      · rw [Function.iterate_add_apply, hk, hj]
        simp [Cond.eval, hres]

/-! ## Statements -/

/-- A walk that comes to a block by a pending slot goes on as the block runs. Jumps must have a target. -/
def Followed (o : Oracle) (fuel : Nat) (strays : Bool → Bool → Bool) (lay : Builder → Builder)
    (exec : List Event → Ending × List Event) : Prop :=
  ∀ (g : Graph) (b : Builder) (aside : List Exit), Accounts b aside → (lay b).Within g →
    strays b.inside b.inLoop = false →
    ∀ e ∈ b.pending, ∀ past, g.Matches o fuel { position := g.follow e, past } (lay b) (exec past)

/-- A node with one way on. -/
theorem emit_follows (op : Op) (hslots : op.slots = 1) (hrun : ∀ past, (op.run o past).1 = some 0) :
    Followed o fuel (fun _ _ => false) (·.emit (.op op)) fun past => (.normal, (op.run o past).2) := by
  intro g b aside ha hw _ e he past
  obtain ⟨k, hk⟩ := walk_emit (o := o) ha hw he past
  rw [hrun] at hk
  refine ⟨k, _, hk, ⟨_, ?_, rfl⟩, by simp⟩
  rw [emit_pending]
  exact mem_exits.2 ⟨rfl, by simp [Draft.slots, hslots]⟩

/-- A node with no way on. -/
theorem emit_stops (op : Op) (hrun : ∀ past, (op.run o past).1 = none) :
    Followed o fuel (fun _ _ => false) (·.emit (.op op)) fun past => (.stopped, (op.run o past).2) := by
  intro g b aside ha hw _ e he past
  obtain ⟨k, hk⟩ := walk_emit (o := o) ha hw he past
  rw [hrun] at hk
  exact ⟨k, none, hk, rfl, by simp⟩

theorem assign_follows {name : String} (hname : name.isEmpty = false) (value : Value) (declare : Bool)
    (ascribed : Option Ty) :
    Followed o fuel (fun _ _ => false) (·.emit (.assign name (some value) declare ascribed))
      fun past => (.normal, past ++ [.assigned name value declare ascribed]) := by
  have hdraft : Draft.assign name (some value) declare ascribed = .op (.assign name value declare ascribed) := by
    simp [Draft.assign, hname]
  rw [hdraft]
  exact emit_follows _ rfl fun _ => rfl

theorem declare_follows {name : String} (hname : name.isEmpty = false) (ascribed : Option Ty)
    (value : Option Value) :
    Followed o fuel (fun _ _ => false) (Stmt.declare name ascribed value).lay
      ((Stmt.declare name ascribed value).exec o fuel) := by
  have hassign : Followed o fuel _ _ _ :=
    assign_follows hname (value.getD (.const .undefined)) true ascribed
  cases ascribed with
  | none => exact hassign
  | some t =>
    intro g b aside ha hw hs e he past
    exact (hassign g b aside ha ⟨hw.node, hw.linked⟩ hs e he past).mono (fun _ _ he => he) (.refl _)

theorem leave_follows : Followed o fuel (fun i _ => !i) Stmt.leave.lay (Stmt.leave.exec o fuel) := by
  intro g b aside ha hw hs e he past
  refine ⟨0, g.follow e, rfl, ?_, by simp [Stmt.exec]⟩
  cases hscopes : b.scopes with
  | nil => simp [Builder.inside, hscopes] at hs
  | cons s rest =>
    refine ⟨{ s with breaks := s.breaks ++ b.pending }, ?_, e, by simp [he], rfl⟩
    simp [Stmt.lay, Builder.addBreaks, hscopes]

theorem again_follows : Followed o fuel (fun _ l => !l) Stmt.again.lay (Stmt.again.exec o fuel) := by
  intro g b aside ha hw hs e he past
  obtain ⟨header, hheader⟩ : ∃ header, b.innermostHeader = some header :=
    Option.isSome_iff_exists.1 (by simpa [Builder.inLoop] using hs)
  obtain ⟨s, hmem, hsome⟩ := List.exists_of_findSome?_eq_some hheader
  obtain ⟨-, hgrow, hlinked⟩ := ha.linkPending (ha.header s hmem header hsome)
  have hlay : Stmt.again.lay b = b.linkPending header := by simp only [Stmt.lay, hheader]
  rw [hlay] at hw ⊢
  exact ⟨0, g.follow e, rfl, ⟨header, hgrow.innermostHeader_eq.trans hheader,
    hw.linked e header (hlinked e he)⟩, by simp [Stmt.exec]⟩

theorem cond_follows (c : Cond) {yes no : List Stmt}
    (hyes : Accounted (fun i l => Stmt.anyStray i l yes) (layAll yes))
    (hno : Accounted (fun i l => Stmt.anyStray i l no) (layAll no))
    (hyes' : Followed o fuel (fun i l => Stmt.anyStray i l yes) (layAll yes) (execAll o fuel yes))
    (hno' : Followed o fuel (fun i l => Stmt.anyStray i l no) (layAll no) (execAll o fuel no)) :
    Followed o fuel (fun i l => Stmt.anyStray i l yes || Stmt.anyStray i l no)
      (Stmt.cond (some c) yes no).lay ((Stmt.cond (some c) yes no).exec o fuel) := by
  intro g b aside ha hw hs e he past
  rw [Bool.or_eq_false_iff] at hs
  rcases hc : c.lower b with ⟨⟨held, failed⟩, b₁⟩
  simp only [Stmt.lay, lowerCond, hc] at hw ⊢
  obtain ⟨hacc₁, hgrow₁⟩ := held_stage ha hc
  obtain ⟨hacc₂, hgrow₂⟩ := failed_stage hyes ha hc
  obtain ⟨-, hgrow₃⟩ := hno _ _ hacc₂
  have hw₃ : (layAll no { layAll yes { b₁ with pending := held } with pending := failed }).Within g :=
    ⟨hw.node, hw.linked⟩
  have hw₂ : (layAll yes { b₁ with pending := held }).Within g := hw₃.of_grow hgrow₃.nodes
  have hw₁ : b₁.Within g := hw₂.of_grow (hyes _ _ hacc₁).2.nodes
  obtain ⟨k, e₁, he₁, hk⟩ := Cond.lower_follows (o := o) ha hc hw₁ he past
  rcases hres : c.eval o past with ⟨holds, past₁⟩
  rw [hres] at he₁ hk
  simp only [Stmt.exec, Cond.eval?, hres]
  refine .after hk ?_
  cases holds with
  | true =>
    have hm := hyes' g _ _ hacc₁ hw₂ (by rw [hgrow₁.inside_eq, hgrow₁.inLoop_eq]; exact hs.1) e₁ he₁ past₁
    exact hm.mono (fun _ e he => List.mem_append_left _ he) hgrow₃.scopes
  | false =>
    have hm := hno' g _ _ hacc₂ hw₃ (by rw [hgrow₂.inside_eq, hgrow₂.inLoop_eq]; exact hs.2) e₁ he₁ past₁
    exact hm.mono (fun _ e he => List.mem_append_right _ he) (.refl _)

/-! ### Loops -/

theorem place_within_of_openLoop (ha : Accounts b aside) {c : Option Cond}
    (hw : (b.openLoop c).2.Within g) : (b.place (.op .merge)).Within g := by
  cases c with
  | none => exact hw
  | some c =>
    obtain ⟨-, -, hgrow⟩ := Cond.lower_accounts (ha.place (.op .merge)).1
      (rfl : c.lower (b.place (.op .merge)) = _)
    exact hw.of_grow hgrow.nodes

/-- A walk at the head of a loop comes to the body, or to the slots where the test fails. -/
theorem openLoop_follows (ha : Accounts b aside) {c : Option Cond} (hw : (b.openLoop c).2.Within g)
    (past : List Event) :
    ∃ k, ∃ e ∈ (if (Cond.eval? o c past).1 then (b.openLoop c).2.pending else (b.openLoop c).1),
      (g.advance o)^[k + 1] { position := some b.nodes.size, past } =
        { position := g.follow e, past := (Cond.eval? o c past).2 } := by
  have hslot : ({ node := b.nodes.size, slot := 0 } : Exit) ∈ (b.place (.op .merge)).pending := by
    rw [place_eq]
    exact mem_exits.2 ⟨rfl, Nat.one_pos⟩
  have hhead : g.advance o { position := some b.nodes.size, past } =
      { position := g.follow { node := b.nodes.size, slot := 0 }, past } := by
    obtain ⟨m, hm, hop⟩ := node_place (place_within_of_openLoop ha hw)
    rw [Graph.advance_node hm, hop]
    rfl
  cases c with
  | none => exact ⟨0, _, hslot, hhead⟩
  | some c =>
    rcases hc : c.lower (b.place (.op .merge)) with ⟨⟨held, failed⟩, b₁⟩
    simp only [Builder.openLoop, hc] at hw ⊢
    obtain ⟨k, e, he, hk⟩ := Cond.lower_follows (o := o) (ha.place (.op .merge)).1 hc
      ⟨hw.node, hw.linked⟩ hslot past
    exact ⟨k, e, he, by rw [Function.iterate_succ_apply, hhead, hk]; rfl⟩

/-- Going round a loop: each round takes a step at least, so that a walk that goes round for ever takes as
many steps as there were rounds. -/
theorem goRound_matches {header : Nat} {held done : List Exit} {test : List Event → Bool × List Event}
    {body : List Event → Ending × List Event} {b₂ : Builder}
    (htest : ∀ past, ∃ k, ∃ e ∈ (if (test past).1 then held else done),
      (g.advance o)^[k + 1] { position := some header, past } =
        { position := g.follow e, past := (test past).2 })
    (hbody : ∀ e ∈ held, ∀ past, g.Matches o fuel { position := g.follow e, past } b₂ (body past))
    (hback : ∀ e ∈ b₂.pending, g.follow e = some header) (hagain : b₂.innermostHeader = some header)
    (hleave : ∀ s ∈ b₂.scopes.head?, ∀ e ∈ s.breaks, e ∈ b'.pending) (hdone : ∀ e ∈ done, e ∈ b'.pending)
    {rounds : Nat} (hr : rounds ≤ fuel) (past : List Event) :
    g.Matches o rounds { position := some header, past } b' (goRound test body rounds past) := by
  induction rounds generalizing past with
  | zero => exact ⟨0, some header, rfl, rfl, fun _ => Nat.le_refl 0⟩
  | succ rounds ih =>
    obtain ⟨k, e, he, hk⟩ := htest past
    rcases hres : test past with ⟨holds, past₁⟩
    rw [hres] at he hk
    rw [goRound, hres]
    cases holds with
    | false => exact ⟨k + 1, _, hk, ⟨e, hdone e he, rfl⟩, by simp⟩
    | true =>
      obtain ⟨j, position, hj, harrives, hrunning⟩ := hbody e he past₁
      rcases hrun : body past₁ with ⟨out, past₂⟩
      rw [hrun] at hj harrives hrunning
      have hsteps : (g.advance o)^[j + (k + 1)] { position := some header, past } =
          { position, past := past₂ } := by
        rw [Function.iterate_add_apply, hk, hj]
      -- a walk that is back at the header goes on with one round less
      have hnext (hpos : position = some header) :
          g.Matches o (rounds + 1) { position := some header, past } b' (goRound test body rounds past₂) := by
        obtain ⟨i, position', hi, harrives', hrunning'⟩ := ih (by omega) past₂
        refine ⟨i + (j + (k + 1)), position', ?_, harrives', fun hr => ?_⟩
        · rw [Function.iterate_add_apply, hsteps, hpos, hi]
        · have := hrunning' hr
          omega
      simp only [hrun]
      cases out with
      | normal =>
        obtain ⟨e', he', rfl⟩ := harrives
        exact hnext (hback e' he')
      | again =>
        obtain ⟨header', hheader', hpos⟩ := harrives
        exact hnext (by rw [hpos, ← hheader', hagain])
      | leave =>
        obtain ⟨s, hs, e', he', rfl⟩ := harrives
        exact ⟨_, _, hsteps, ⟨e', hleave s hs e' he', rfl⟩, by simp [Ending.caught]⟩
      | stopped => exact ⟨_, _, hsteps, harrives, by simp [Ending.caught]⟩
      | running =>
        refine ⟨_, _, hsteps, harrives, fun _ => ?_⟩
        -- the body did not end, and took as many steps as there is fuel
        have := hrunning rfl
        omega

theorem loop_follows (c : Option Cond) {body : List Stmt}
    (hbody : Accounted (fun i l => Stmt.anyStray i l body) (layAll body))
    (hbody' : Followed o fuel (fun i l => Stmt.anyStray i l body) (layAll body) (execAll o fuel body)) :
    Followed o fuel (fun _ _ => Stmt.anyStray true true body) (Stmt.loop c body).lay
      ((Stmt.loop c body).exec o fuel) := by
  intro g b aside ha hw hs e he past
  obtain ⟨hacc, s, hscopes, hheader, hsize, hlay⟩ := loop_stage c hbody ha
  rw [hlay] at hw ⊢
  obtain ⟨hacc₂, hgrow₂⟩ := hbody _ _ hacc
  obtain ⟨-, hgrow₃, hlinked⟩ := hacc₂.linkPending hsize
  have hw₃ : ((layAll body ((b.openLoop c).2.enter (some b.nodes.size))).linkPending
      b.nodes.size).Within g := ⟨hw.node, hw.linked⟩
  have hw₂ := hw₃.of_grow hgrow₃.nodes
  have hw₁ : (b.openLoop c).2.Within g := hw₂.of_grow hgrow₂.nodes
  have hstray := hbody' g _ _ hacc hw₂ hs
  rw [follow_place ha (place_within_of_openLoop ha hw₁) he]
  refine goRound_matches (openLoop_follows ha hw₁) hstray
    (fun e he => hw₃.linked e _ (hlinked e he)) ?_ ?_ (fun e he => ?_) (Nat.le_refl fuel) past
  · rw [innermostHeader, hscopes, List.findSome?_cons, hheader]
  · intro s' hs' e he
    obtain rfl : s = s' := by simpa [hscopes] using hs'
    exact List.mem_append_right _ he
  · exact List.mem_append_left _ he

/-! ### Switches -/

/-- Falling off the end of a clause leaves the switch. -/
def Ending.ofClause : Ending → Ending
  | .normal => .leave
  | out => out

theorem Ending.caught_ofClause (out : Ending) : out.ofClause.caught = out.caught := by
  cases out <;> rfl

theorem Ending.ofClause_ne_normal (out : Ending) : out.ofClause ≠ .normal := by
  cases out <;> simp [Ending.ofClause]

theorem Graph.Matches.addBreaks {w : Walk} {run : Ending × List Event}
    (hm : g.Matches o fuel w b run) (hs : (b.addBreaks b.pending).scopes ≠ [])
    (hg : ScopesGrow b.scopes (b.addBreaks b.pending).scopes) :
    g.Matches o fuel w (b.addBreaks b.pending) (run.1.ofClause, run.2) := by
  obtain ⟨out, past⟩ := run
  cases out with
  | normal =>
    obtain ⟨k, position, hk, ⟨e, he, hf⟩, -⟩ := hm
    refine ⟨k, position, hk, ?_, by simp [Ending.ofClause]⟩
    cases hb : b.scopes with
    | nil => simp [Builder.addBreaks, hb] at hs
    | cons s rest =>
      exact ⟨{ s with breaks := s.breaks ++ b.pending }, by simp [Builder.addBreaks, hb], e,
        by simp [he], hf⟩
  | leave | again | stopped | running => exact hm.mono (by simp) hg

/-- A walk by one of the slots of the clauses goes on as the clause runs that the value belongs to. -/
theorem clauses_follow (clauses : List (List Ty × List Stmt)) {s : Scope} {scopes : List Scope}
    {node first : Nat}
    (hclauses : ∀ clause ∈ clauses, Accounted (fun i l => Stmt.anyStray i l clause.2) (layAll clause.2))
    (hclauses' : ∀ clause ∈ clauses, Followed o fuel (fun i l => Stmt.anyStray i l clause.2)
      (layAll clause.2) (execAll o fuel clause.2))
    (hs : b.scopes = s :: scopes)
    (ha : Accounts { b with pending := [] }
      (clauseExits node first (clauses.flatMap (·.1)).length ++ aside))
    (hw : (layClauses node first clauses b).Within g) (hstray : Stmt.clauseStray b.inLoop clauses = false)
    (value : Nat) (past : List Event) :
    match execClause o fuel value clauses past with
    | none => (clauses.flatMap (·.1)).length ≤ value
    | some run =>
      g.Matches o fuel { position := g.follow { node, slot := first + value }, past }
        (layClauses node first clauses b) (run.1.ofClause, run.2) := by
  induction clauses generalizing b s first value with
  | nil => exact Nat.zero_le value
  | cons clause rest ih =>
    obtain ⟨values, body⟩ := clause
    rw [Stmt.clauseStray, Bool.or_eq_false_iff] at hstray
    have hstart := clause_start ha
    obtain ⟨hacc, hbreaks, hgrow, s', hs'⟩ := clause_stage (hclauses _ List.mem_cons_self) hs hstart rfl
    have hrest := fun clause hmem => hclauses clause (List.mem_cons_of_mem (values, body) hmem)
    obtain ⟨-, hgrow'⟩ := clauses_accounted rest hrest hs' hacc
    rw [execClause]
    -- the value belongs to this clause, or to one that comes later
    split_ifs with hvalue
    · have hw₁ := (hw.of_grow hgrow'.nodes).of_grow hbreaks.nodes
      have hinside : Builder.inside { b with pending := clauseExits node first values.length } = true := by
        simp [Builder.inside, hs]
      have hmem : ({ node, slot := first + value } : Exit) ∈ clauseExits node first values.length :=
        List.mem_map.2 ⟨value, List.mem_range.2 hvalue, rfl⟩
      have hm := hclauses' _ List.mem_cons_self g _ _ hstart hw₁ (by rw [hinside]; exact hstray.1) _ hmem past
      exact (hm.addBreaks (by simp [hs']) hbreaks.scopes).mono
        (fun hnormal => absurd hnormal (Ending.ofClause_ne_normal _)) hgrow'.scopes
    · have hm := ih hrest (fun clause hmem => hclauses' clause (List.mem_cons_of_mem _ hmem)) hs' hacc hw
        (by rw [hgrow.inLoop_eq]; exact hstray.2) (value - values.length)
      rw [show first + values.length + (value - values.length) = first + value by omega] at hm
      cases hrun : execClause o fuel (value - values.length) rest past with
      | none =>
        rw [hrun] at hm
        rw [List.flatMap_cons, List.length_append]
        show values.length + (rest.flatMap (·.1)).length ≤ value
        have : (rest.flatMap (·.1)).length ≤ value - values.length := hm
        omega
      | some run =>
        rw [hrun] at hm
        exact hm

/-- After a switch, what left it is pending. -/
theorem Graph.Matches.leaveSwitch {w : Walk} {run : Ending × List Event} {s : Scope} {scopes : List Scope}
    (hm : g.Matches o fuel w b run) (hs : b.scopes = s :: scopes) (hh : s.header = none) :
    g.Matches o fuel w { b with scopes := scopes, pending := b.pending ++ s.breaks }
      (run.1.caught, run.2) := by
  obtain ⟨out, past⟩ := run
  obtain ⟨k, position, hk, harrives, hrunning⟩ := hm
  cases out with
  | normal =>
    obtain ⟨e, he, hf⟩ := harrives
    exact ⟨k, position, hk, ⟨e, List.mem_append_left _ he, hf⟩, hrunning⟩
  | leave =>
    obtain ⟨s', hs', e, he, hf⟩ := harrives
    obtain rfl : s = s' := by simpa [hs] using hs'
    exact ⟨k, position, hk, ⟨e, List.mem_append_right _ he, hf⟩, by simp [Ending.caught]⟩
  | again =>
    obtain ⟨header, hheader, hpos⟩ := harrives
    rw [innermostHeader, hs, List.findSome?_cons, hh] at hheader
    exact ⟨k, position, hk, ⟨header, hheader, hpos⟩, hrunning⟩
  | stopped | running => exact ⟨k, position, hk, harrives, hrunning⟩

/-- Runs the default clause of a switch, or what stands for it. -/
def execDefault (o : Oracle) (fuel : Nat) : Option (List Stmt) → List Event → Ending × List Event
  | none, past => (.normal, past)
  | some body, past => execAll o fuel body past

theorem exec_switch (o : Oracle) (fuel : Nat) (v : String) (prop : Option Text)
    (clauses : List (List Ty × List Stmt)) (default : Option (List Stmt)) (past : List Event) :
    (Stmt.switch v prop clauses default).exec o fuel past =
      let site := SwitchSite.ofClauses v prop clauses default
      let past' := past ++ [.chose site (o.choose past site)]
      let run := (execClause o fuel (o.choose past site) clauses past').getD
        (execDefault o fuel default past')
      (run.1.caught, run.2) := by
  cases default <;> rfl

theorem switch_follows (v : String) (prop : Option Text) {clauses : List (List Ty × List Stmt)}
    {default : Option (List Stmt)} {strays : Bool → Bool → Bool}
    (hclauses : ∀ clause ∈ clauses, Accounted (fun i l => Stmt.anyStray i l clause.2) (layAll clause.2))
    (hdefault : Accounted strays (layDefault default))
    (hclauses' : ∀ clause ∈ clauses, Followed o fuel (fun i l => Stmt.anyStray i l clause.2)
      (layAll clause.2) (execAll o fuel clause.2))
    (hdefault' : Followed o fuel strays (layDefault default) (execDefault o fuel default)) :
    Followed o fuel (fun _ l => Stmt.clauseStray l clauses || strays true l)
      (Stmt.switch v prop clauses default).lay ((Stmt.switch v prop clauses default).exec o fuel) := by
  intro g b aside ha hw hs e he past
  rw [Bool.or_eq_false_iff] at hs
  have hexec := exec_switch o fuel v prop clauses default past
  generalize hsite : SwitchSite.ofClauses v prop clauses default = site at hexec
  have hcases : site.cases = clauses.flatMap (·.1) := by rw [← hsite]; rfl
  simp only at hexec
  obtain ⟨hacc, -, hinLoop⟩ := openSwitch_accounts ha site
  obtain ⟨hacc₁, hgrow₁⟩ := default_stage hclauses hcases ha rfl
  obtain ⟨-, hgrow₂⟩ := hdefault _ _ hacc₁
  obtain ⟨s, hscopes, hheader, hlay⟩ := switch_stage hsite rfl rfl rfl (hgrow₁.trans hgrow₂)
  rw [hlay] at hw ⊢
  generalize hnode : (b.emit (.op (.switch site))).last = node at hw hacc hacc₁ hgrow₁ hgrow₂ hscopes ⊢
  have hw₂ : (layDefault default { layClauses node 0 clauses (b.openSwitch site) with
      pending := [{ node, slot := site.cases.length }] }).Within g := ⟨hw.node, hw.linked⟩
  have hw₁ : (layClauses node 0 clauses (b.openSwitch site)).Within g := hw₂.of_grow hgrow₂.nodes
  have hw₀ : (b.emit (.op (.switch site))).Within g := hw₁.of_grow hgrow₁.nodes
  obtain ⟨k, hk⟩ := walk_emit (o := o) ha hw₀ he past
  rw [hnode] at hk
  refine .after hk ?_
  -- either the choice is one of the case values, and a clause runs, or it is the last slot
  have hclause := clauses_follow clauses hclauses hclauses' rfl (hcases ▸ hacc) hw₁
    (by rw [hinLoop]; exact hs.1) (o.choose past site) (past ++ [.chose site (o.choose past site)])
  rw [Nat.zero_add] at hclause
  cases hrun : execClause o fuel (o.choose past site) clauses
      (past ++ [.chose site (o.choose past site)]) with
  | some run =>
    rw [hrun] at hclause
    have hm := (hclause.mono (fun hnormal => absurd hnormal (Ending.ofClause_ne_normal _))
      hgrow₂.scopes).leaveSwitch hscopes hheader
    rw [Ending.caught_ofClause] at hm
    rw [hexec, hrun]
    exact hm
  | none =>
    rw [hrun, ← hcases] at hclause
    have hlast : (o.choose past site : Nat) = site.cases.length := by
      have := (o.choose past site).isLt
      omega
    have hinside : (b.openSwitch site).inside = true := rfl
    rw [hexec, hrun]
    refine (hdefault' g _ _ hacc₁ hw₂ ?_ { node, slot := o.choose past site } (by simp [hlast])
      _).leaveSwitch hscopes hheader
    rw [hgrow₁.inside_eq, hgrow₁.inLoop_eq, hinside, hinLoop]
    exact hs.2

/-! ### Blocks -/

theorem cons_follows {s : Stmt} {rest : List Stmt}
    (hs : Accounted (fun i l => s.isStray i l) s.lay)
    (hrest : Accounted (fun i l => Stmt.anyStray i l rest) (layAll rest))
    (hs' : Followed o fuel (fun i l => s.isStray i l) s.lay (s.exec o fuel))
    (hrest' : Followed o fuel (fun i l => Stmt.anyStray i l rest) (layAll rest) (execAll o fuel rest)) :
    Followed o fuel (fun i l => Stmt.anyStray i l (s :: rest)) (layAll (s :: rest))
      (execAll o fuel (s :: rest)) := by
  intro g b aside ha hw hstray e he past
  simp only [Stmt.anyStray, Bool.or_eq_false_iff] at hstray
  rw [layAll] at hw ⊢
  obtain ⟨hacc, hgrow⟩ := hs b aside ha
  obtain ⟨-, hgrow'⟩ := hrest _ _ hacc
  have hm := hs' g b aside ha (hw.of_grow hgrow'.nodes) hstray.1 e he past
  rw [execAll]
  rcases hrun : s.exec o fuel past with ⟨out, past₁⟩
  rw [hrun] at hm
  cases out with
  | normal =>
    obtain ⟨k, position, hk, ⟨e', he', rfl⟩, -⟩ := hm
    refine .after hk (hrest' g _ _ hacc hw ?_ e' he' past₁)
    rw [hgrow.inside_eq, hgrow.inLoop_eq]
    exact hstray.2
  | leave | again | stopped | running => exact hm.mono (by simp) hgrow'.scopes

mutual
/-- A walk through what was laid out for a statement goes on as the statement runs. -/
theorem Stmt.lay_follows (s : Stmt) (hs : s.isProper = true) :
    Followed o fuel (fun i l => s.isStray i l) s.lay (s.exec o fuel) := by
  match s with
  | .declare name ascribed value =>
    exact declare_follows (by simpa [Stmt.isProper] using hs) ascribed value
  | .assign name none => simp [Stmt.isProper] at hs
  | .assign name (some value) =>
    exact assign_follows (by simpa [Stmt.isProper] using hs) value false none
  | .call site => exact emit_follows (.call site) rfl fun _ => rfl
  | .ret value => exact emit_stops (.ret value) fun _ => rfl
  | .throw value => exact emit_stops (.throw value) fun _ => rfl
  | .cond none yes no => simp [Stmt.isProper] at hs
  | .cond (some c) yes no =>
    simp only [Stmt.isProper, Option.isSome_some, Bool.true_and, Bool.and_eq_true] at hs
    exact cond_follows c (layAll_accounts yes hs.1) (layAll_accounts no hs.2) (layAll_follows yes hs.1)
      (layAll_follows no hs.2)
  | .loop c body => exact loop_follows c (layAll_accounts body hs) (layAll_follows body hs)
  | .switch v prop clauses none =>
    have hdefault : Accounted (fun _ _ => false) (layDefault none) := fun b aside ha => ⟨ha, .refl b⟩
    have hdefault' : Followed o fuel (fun _ _ => false) (layDefault none) (execDefault o fuel none) :=
      fun g b aside ha hw hs e he past => ⟨0, g.follow e, rfl, ⟨e, he, rfl⟩, by simp [execDefault]⟩
    simpa only [Stmt.isStray, Bool.or_false] using switch_follows v prop (layClauses_accounts clauses hs)
      hdefault (layClauses_follow clauses hs) hdefault'
  | .switch v prop clauses (some body) =>
    simp only [Stmt.isProper, Bool.and_eq_true] at hs
    have hdefault : Accounted (fun i l => Stmt.anyStray i l body) (layDefault (some body)) :=
      layAll_accounts body hs.2
    exact switch_follows v prop (layClauses_accounts clauses hs.1) hdefault
      (layClauses_follow clauses hs.1) (layAll_follows body hs.2)
  | .leave => exact leave_follows
  | .again => exact again_follows

theorem layAll_follows (body : List Stmt) (hb : Stmt.allProper body = true) :
    Followed o fuel (fun i l => Stmt.anyStray i l body) (layAll body) (execAll o fuel body) := by
  match body with
  | [] => exact fun g b aside ha hw hs e he past => ⟨0, g.follow e, rfl, ⟨e, he, rfl⟩, by simp [execAll]⟩
  | s :: rest =>
    rw [Stmt.allProper, Bool.and_eq_true] at hb
    exact cons_follows (s.lay_accounts hb.1) (layAll_accounts rest hb.2) (s.lay_follows hb.1)
      (layAll_follows rest hb.2)

theorem layClauses_follow (clauses : List (List Ty × List Stmt))
    (hc : Stmt.clausesProper clauses = true) :
    ∀ clause ∈ clauses, Followed o fuel (fun i l => Stmt.anyStray i l clause.2) (layAll clause.2)
      (execAll o fuel clause.2) := by
  match clauses with
  | [] => simp
  | (values, body) :: rest =>
    rw [Stmt.clausesProper, Bool.and_eq_true] at hc
    intro clause hmem
    rcases List.mem_cons.1 hmem with rfl | hmem
    · exact layAll_follows body hc.1
    · exact layClauses_follow rest hc.2 clause hmem
end

end Statements

/-! ## Bodies -/

namespace Graph

variable {name : String} {params : List (Param Ty)} {returns : Option Ty} {body : List Stmt}

/-- With some fuel the body comes to its end, and so does the walk, or both go on; then the walk takes as
many steps as there was fuel. -/
theorem walk_of_execute (hb : Stmt.allProper body = true) (hs : Stmt.anyStray false false body = false)
    {g : Graph} (hy : ((layAll body (.start name params returns)).place (.op .exit)).Yields g)
    (hentry : g.entry = 0) (o : Oracle) (fuel : Nat) :
    ∃ k, (g.walk o k).past = (Stmt.execute o fuel body).2 ∧
      ((g.walk o k).position = none ↔ (Stmt.execute o fuel body).1 = true) ∧
      ((Stmt.execute o fuel body).1 = false → fuel ≤ k) := by
  have hstart := start_accounts name params returns
  have hnode : (start name params returns).nodes[0]? = some { draft := .op .entry, links := [[]] } := rfl
  have hpending : (start name params returns).pending = [{ node := 0, slot := 0 }] := rfl
  have hscopes : (start name params returns).scopes = [] := rfl
  obtain ⟨hacc, hgrow⟩ := layAll_accounts body hb _ _ hstart
  have hfollowed : Followed o fuel _ _ _ := layAll_follows body hb
  have hw := hy.within
  have hw₁ := hw.of_grow (hacc.place (.op .exit)).2.1
  have hw₀ := hw₁.of_grow hgrow.nodes
  have hrun := hfollowed g _ _ hstart hw₁ hs { node := 0, slot := 0 } (by simp [hpending]) []
  have hgrown := hgrow.scopes
  rw [hscopes] at hgrown
  generalize layAll body (start name params returns) = b at hacc hw hrun hgrown
  -- the walk starts at the entry node
  obtain ⟨m, hm, hop⟩ := hw₀.node 0 _ hnode
  have hfirst : g.advance o { position := some g.entry, past := [] } =
      { position := g.follow { node := 0, slot := 0 }, past := [] } := by
    rw [hentry, advance_node hm, ← Draft.op.inj hop]
    rfl
  obtain ⟨k, position, hk, harrives, hrunning⟩ := hrun
  have hwalk : g.walk o (k + 1) = { position, past := (execAll o fuel body []).2 } := by
    rw [walk, Function.iterate_succ_apply, hfirst, hk]
  have hnone : b.scopes = [] := by
    match b.scopes, hgrown with
    | [], _ => rfl
  rw [Stmt.execute]
  rcases hres : execAll o fuel body [] with ⟨out, past⟩
  rw [hres] at harrives hrunning hwalk
  cases out with
  | normal =>
    obtain ⟨e, he, rfl⟩ := harrives
    -- what falls off the end goes to the exit node
    obtain ⟨n, hn, hexit⟩ := node_place hw
    refine ⟨1 + (k + 1), ?_⟩
    have hlast : g.walk o (1 + (k + 1)) = { position := none, past := past ++ [.fellOff] } := by
      rw [walk, Function.iterate_add_apply, ← walk, hwalk, follow_place hacc hw he, Function.iterate_one,
        advance_node hn, hexit]
      rfl
    simp [hlast]
  | leave =>
    obtain ⟨s, hs, -⟩ := harrives
    simp [hnone] at hs
  | again =>
    obtain ⟨header, hheader, -⟩ := harrives
    simp [innermostHeader, hnone] at hheader
  | stopped =>
    obtain rfl : position = none := harrives
    exact ⟨k + 1, by simp [hwalk]⟩
  | running =>
    obtain ⟨id, rfl⟩ := Option.isSome_iff_exists.1 harrives
    have := hrunning rfl
    exact ⟨k + 1, by simp [hwalk]; omega⟩

/-- **The graph of a body runs as the body does.** Every proper body without stray jumps has a graph. For
every oracle, a walk from the entry comes to its end with some events exactly if the body does, and the
events that happen on the walk are those that happen in the body, up to any point. -/
theorem ofBody_runs_alike (name : String) (params : List (Param Ty)) (returns : Option Ty)
    (body : List Stmt) (hb : Stmt.allProper body = true) (hs : Stmt.anyStray false false body = false) :
    ∃ g, ofBody name params returns body = .ok g ∧ ∀ o : Oracle,
      (∀ events, (∃ k, (g.walk o k).position = none ∧ (g.walk o k).past = events) ↔
        ∃ fuel, Stmt.execute o fuel body = (true, events)) ∧
      ∀ events, (∃ k, events <+: (g.walk o k).past) ↔
        ∃ fuel, events <+: (Stmt.execute o fuel body).2 := by
  obtain ⟨g, hg, -, hy, hentry, -⟩ :=
    ofBody_of_not_stray name params returns hb hs
  refine ⟨g, hg, fun o => ⟨fun events => ⟨?_, ?_⟩, fun events => ⟨?_, ?_⟩⟩⟩
  · rintro ⟨k, hk, rfl⟩
    -- with more fuel than the walk has steps the body cannot go on
    obtain ⟨j, hpast, hended, hlong⟩ := walk_of_execute hb hs hy hentry o (k + 1)
    have htrue : (Stmt.execute o (k + 1) body).1 = true := by
      by_contra hfalse
      have hle := hlong (by simpa using hfalse)
      refine hfalse (hended.1 ?_)
      rwa [walk, iterate_ended (by omega : k ≤ j) hk]
    have hj := hended.2 htrue
    refine ⟨k + 1, Prod.ext htrue ?_⟩
    rw [← hpast]
    exact (past_of_ended hk).eq_of_length_le (past_of_ended hj).length_le
  · rintro ⟨fuel, hfuel⟩
    obtain ⟨k, hpast, hended, -⟩ := walk_of_execute hb hs hy hentry o fuel
    rw [hfuel] at hpast hended
    exact ⟨k, hended.2 rfl, hpast⟩
  · rintro ⟨k, hk⟩
    obtain ⟨j, hpast, hended, hlong⟩ := walk_of_execute hb hs hy hentry o k
    refine ⟨k, hk.trans ?_⟩
    rw [← hpast]
    cases hdone : (Stmt.execute o k body).1 with
    | false => exact iterate_past g o _ (hlong hdone)
    | true => exact past_of_ended (hended.2 hdone)
  · rintro ⟨fuel, hfuel⟩
    obtain ⟨k, hpast, -⟩ := walk_of_execute hb hs hy hentry o fuel
    exact ⟨k, by rwa [hpast]⟩

/-- Tests hold after an even number of events, and switches take their first case. -/
def parityOracle : Oracle where
  test past _ := past.length % 2 == 0
  choose _ _ := 0

/-- The first round goes through both connectives and assigns; the second leaves the loop by the test. -/
theorem tangledBody_runs_alike :
    Stmt.allProper tangledBody = true ∧ Stmt.anyStray false false tangledBody = false ∧
      ∃ g, ofBody "f" [] none tangledBody = .ok g ∧
        let site : SwitchSite := { var := "x", cases := [.string, .number, .null] }
        ∃ k, (g.walk parityOracle k).position = none ∧
          (g.walk parityOracle k).past =
            [ .assigned "x" (.const .undefined) true none,
              .chose site 0, .tested none true, .tested none false, .tested none true,
              .assigned "x" (.var "x") false none,
              .chose site 0, .tested none false,
              .returned none ] := by
  have hproper : Stmt.allProper tangledBody = true := by decide
  have hstray : Stmt.anyStray false false tangledBody = false := by decide
  obtain ⟨g, hg, hruns⟩ := ofBody_runs_alike "f" [] none tangledBody hproper hstray
  exact ⟨hproper, hstray, g, hg, ((hruns parityOracle).1 _).2 ⟨2, rfl⟩⟩

end Graph
end FlowTyping
