import FlowTyping.Proofs.Flow.Layout
import FlowTyping.Proofs.Flow.Order

/-!
# Closing a graph

When the last statement of a body is laid out, no loop or switch is around, so the exit node takes all
slots that are left. Then every slot was linked, and the check of the graph finds nothing wrong.

* **`OpenNode.Becomes`** — a node of which each slot was linked exactly once, and what it is in the graph.
* **`Builder.Closed`** — entry first, exit last, statements between, and no open slot.
* **`Builder.Closed.check`** — the check lets a closed graph through as it is.
* **`Graph.ofBody_wellFormed`** — which bodies have a graph, and what every such graph is like.
-/

namespace FlowTyping

/-- Each slot of the node was linked exactly once, to its successor in the graph. -/
def OpenNode.Becomes (n : OpenNode) (m : Node) : Prop :=
  n.draft = .op m.op ∧ n.links = m.succs.map ([·])

namespace Sketch

variable {s : Sketch}

/-- What a written node needs in order to pass the check. -/
theorem checkNode_op {id : Nat} {w : SketchNode} {op : Op} (hid : w.id = id) (hd : w.draft = .op op)
    (hslots : w.succs.length = op.slots) (hsuccs : ∀ x ∈ w.succs, s.hasNode x = true)
    (hentry : op.isEntry = true → s.entry = id) :
    s.checkNode id (some w) = .ok { op, succs := w.succs.map Int.toNat } := by
  have hfind : w.succs.find? (!s.hasNode ·) = none := by simpa using hsuccs
  have hsecond : (op.isEntry && s.entry ≠ id) = false := by
    cases hop : op.isEntry with
    | false => rfl
    | true => simp [hentry hop]
  simp only [checkNode, hd, Draft.slots, hfind, hsecond, hid, hslots, ne_eq, not_true_eq_false, if_false,
    Bool.false_eq_true]
  rfl

end Sketch

namespace OpenNode.Becomes

variable {n : OpenNode} {m : Node}

theorem sketch_succs (hb : n.Becomes m) (id : Nat) :
    (n.sketch id).succs = m.succs.map fun target : Nat => (target : Int) := by
  rw [OpenNode.sketch, hb.2, List.map_map]
  rfl

theorem checkNode {s : Sketch} (hb : n.Becomes m) (id : Nat) (hslots : m.succs.length = m.op.slots)
    (hsuccs : ∀ x ∈ m.succs, s.hasNode x = true) (hentry : m.op.isEntry = true → s.entry = id) :
    s.checkNode id (some (n.sketch id)) = .ok m := by
  rw [Sketch.checkNode_op rfl hb.1 (by rw [hb.sketch_succs]; simpa using hslots)
    (by rw [hb.sketch_succs]; simpa using hsuccs) hentry, hb.sketch_succs, List.map_map]
  exact congrArg (fun succs => Except.ok { m with succs }) (List.map_id m.succs)

theorem unique {m' : Node} (hb : n.Becomes m) (hb' : n.Becomes m') : m = m' := by
  obtain ⟨op, succs⟩ := m
  obtain ⟨op', succs'⟩ := m'
  obtain ⟨hd, hl⟩ := hb
  obtain ⟨hd', hl'⟩ := hb'
  obtain rfl : op = op' := Draft.op.inj (hd.symm.trans hd')
  have hsuccs : succs = succs' :=
    List.map_injective_iff.2 (fun _ _ heq => (List.cons.inj heq).1) (hl.symm.trans hl')
  rw [hsuccs]

end OpenNode.Becomes

/-- Nodes that were each linked once pass the check as they are. -/
theorem Sketch.checkNodes_becomes {s : Sketch} {opens : List OpenNode} {nodes : List Node}
    (hb : List.Forall₂ OpenNode.Becomes opens nodes) (first : Nat)
    (hslots : ∀ m ∈ nodes, m.succs.length = m.op.slots)
    (hsuccs : ∀ m ∈ nodes, ∀ x ∈ m.succs, s.hasNode x = true)
    (hentry : ∀ (k : Nat) (m : Node), nodes[k]? = some m → m.op.isEntry = true →
      s.entry = (first + k : Nat)) :
    s.checkNodes first ((opens.zipIdx first).map fun (n, id) => some (n.sketch id)) = .ok nodes := by
  induction hb generalizing first with
  | nil => rfl
  | @cons n m opens nodes hone hb ih =>
    have hnode := hone.checkNode (s := s) first (hslots m (by simp)) (hsuccs m (by simp))
      (fun he => hentry 0 m rfl he)
    have hrest := ih (first + 1) (fun k hk => hslots k (by simp [hk]))
      (fun k hk => hsuccs k (by simp [hk]))
      (fun k m' hm' he => by rw [hentry (k + 1) m' hm' he]; omega)
    simp only [List.zipIdx_cons, List.map_cons, checkNodes, hnode, hrest]
    rfl

theorem Draft.isLaid_op {d : Draft} (hd : d.isLaid = true) :
    ∃ op, d = .op op ∧ op ≠ .exit ∧ op.isEntry = false := by
  match d, hd with
  | .op (.assign ..), _ | .op (.branch _), _ | .op .merge, _ | .op (.ret _), _ | .op (.throw _), _
  | .op (.call _), _ | .op (.switch _), _ => exact ⟨_, rfl, by simp, rfl⟩

namespace Builder

/-! ## The nodes of a closed graph -/

/-- The first node is the entry, the last one the exit, those between come from statements, and no slot is
open. -/
structure Closed (b : Builder) : Prop where
  held : Held b.nodes.size b.nodes []
  exit_pos : 0 < b.last
  entry : ∃ n, b.nodes[0]? = some n ∧ n.draft = .op .entry
  exit : ∃ n, b.nodes[b.last]? = some n ∧ n.draft = .op .exit
  laid : ∀ (id : Nat) (n : OpenNode), 0 < id → id < b.last → b.nodes[id]? = some n →
    n.draft.isLaid = true

namespace Closed

variable {b : Builder} {id : Nat} {n : OpenNode} {m : Node}

/-- Every node does something; only the first is an entry, and only the last is an exit. -/
theorem exists_op (hc : Closed b) (hn : b.nodes[id]? = some n) :
    ∃ op, n.draft = .op op ∧ (op.isEntry = true ↔ id = 0) ∧ (op = .exit ↔ id = b.last) := by
  have hlt := (Array.getElem?_eq_some_iff.1 hn).1
  have hpos := hc.exit_pos
  rcases Nat.eq_zero_or_pos id with rfl | hid
  · obtain ⟨n', hn', hd⟩ := hc.entry
    obtain rfl : n = n' := by simpa [hn] using hn'
    exact ⟨.entry, hd, by simp [Op.isEntry], by simp; omega⟩
  · by_cases hlast : id = b.last
    · subst hlast
      obtain ⟨n', hn', hd⟩ := hc.exit
      obtain rfl : n = n' := by simpa [hn] using hn'
      exact ⟨.exit, hd, by simp [Op.isEntry]; omega, by simp⟩
    · have hbelow : id < b.last := by
        rw [last] at hlast ⊢
        omega
      obtain ⟨op, hd, hexit, hentry⟩ := Draft.isLaid_op (hc.laid id n hid hbelow hn)
      exact ⟨op, hd, by simp [hentry]; omega, by simp [hexit, hlast]⟩

/-- Every slot was linked exactly once. -/
theorem exists_becomes (hc : Closed b) (hn : b.nodes[id]? = some n) : ∃ m, n.Becomes m := by
  obtain ⟨op, hd, -, -⟩ := hc.exists_op hn
  have hlinked : ∀ link ∈ n.links, ∃ target, link = [target] := by
    intro link hlink
    rcases (hc.held.tidy id n hn).once link hlink with rfl | ⟨target, -, rfl⟩
    · -- an open slot would be on the list, which is empty
      obtain ⟨slot, hslot⟩ := List.mem_iff_getElem?.1 hlink
      have := (hc.held.isOpen { node := id, slot }).1 ⟨n, hn, hslot⟩
      simp at this
    · exact ⟨target, rfl⟩
  have hsuccs : ∃ succs : List Nat, n.links = succs.map ([·]) := by
    generalize n.links = links at hlinked
    induction links with
    | nil => exact ⟨[], rfl⟩
    | cons link links ih =>
      obtain ⟨target, rfl⟩ := hlinked link (by simp)
      obtain ⟨succs, rfl⟩ := ih fun link hlink => hlinked link (by simp [hlink])
      exact ⟨target :: succs, rfl⟩
  obtain ⟨succs, hlinks⟩ := hsuccs
  exact ⟨{ op, succs }, hd, hlinks⟩

/-- The node has the successors that it needs, and they are there. -/
theorem succs_of_becomes (hc : Closed b) (hn : b.nodes[id]? = some n) (hm : n.Becomes m) :
    m.succs.length = m.op.slots ∧ ∀ x ∈ m.succs, x < b.nodes.size := by
  obtain ⟨hslots, honce⟩ := hc.held.tidy id n hn
  rw [hm.1, hm.2, List.length_map] at hslots
  refine ⟨hslots, fun x hx => ?_⟩
  rcases honce [x] (by rw [hm.2]; exact List.mem_map_of_mem hx) with hnil | ⟨target, ht, heq⟩
  · simp at hnil
  · rwa [(List.cons.inj heq).1]

end Closed

/-- The nodes of the graph are those that were laid out, with every slot linked exactly once. -/
structure Yields (b : Builder) (g : Graph) : Prop where
  size : g.size = b.nodes.size
  node : ∀ (id : Nat) (n : OpenNode), b.nodes[id]? = some n → ∃ m, g.nodes[id]? = some m ∧ n.Becomes m

theorem Yields.exists_open {b : Builder} {g : Graph} (hy : b.Yields g) {id : Nat} {m : Node}
    (hm : g.nodes[id]? = some m) : ∃ n, b.nodes[id]? = some n ∧ n.Becomes m := by
  have hid : id < b.nodes.size := hy.size ▸ (Array.getElem?_eq_some_iff.1 hm).1
  obtain ⟨m', hm', hb⟩ := hy.node id b.nodes[id] (by simp)
  obtain rfl : m = m' := by simpa [hm] using hm'
  exact ⟨b.nodes[id], by simp, hb⟩

theorem exists_nodes (opens : List OpenNode) (hone : ∀ n ∈ opens, ∃ m, n.Becomes m) :
    ∃ nodes, List.Forall₂ OpenNode.Becomes opens nodes := by
  induction opens with
  | nil => exact ⟨[], .nil⟩
  | cons n opens ih =>
    obtain ⟨m, hm⟩ := hone n (by simp)
    obtain ⟨nodes, hnodes⟩ := ih fun n hn => hone n (by simp [hn])
    exact ⟨m :: nodes, .cons hm hnodes⟩

theorem hasNode_sketch {b : Builder} {x : Nat} (hx : x < b.nodes.size) :
    b.sketch.hasNode x = true := by
  simp [Sketch.hasNode, sketch, hx]

theorem hasEntry_sketch {b : Builder} {n : OpenNode} (hn : b.nodes[0]? = some n)
    (hd : n.draft = .op .entry) : b.sketch.hasEntry = true := by
  simp [Sketch.hasEntry, Sketch.node?, sketch, OpenNode.sketch, hn, hd]

/-- The check lets a closed graph through as it is. -/
theorem Closed.check {b : Builder} (hc : Closed b) :
    ∃ g, b.sketch.check = .ok g ∧ b.Yields g ∧ g.entry = 0 ∧ g.exit = b.last := by
  obtain ⟨nodes, hnodes⟩ := exists_nodes b.nodes.toList fun n hn => by
    obtain ⟨id, hid⟩ := List.mem_iff_getElem?.1 hn
    exact hc.exists_becomes (by simpa using hid)
  have hlen : b.nodes.size = nodes.length := by simpa using hnodes.length_eq
  have hback (k : Nat) (m : Node) (hm : nodes[k]? = some m) :
      ∃ n, b.nodes[k]? = some n ∧ n.Becomes m := by
    obtain ⟨hk, rfl⟩ := List.getElem?_eq_some_iff.1 hm
    have hk' : k < b.nodes.size := by omega
    exact ⟨b.nodes[k], by simp, hnodes.get (by simpa using hk') hk⟩
  have hsuccs (m : Node) (hm : m ∈ nodes) :
      m.succs.length = m.op.slots ∧ ∀ x ∈ m.succs, x < b.nodes.size := by
    obtain ⟨k, hk⟩ := List.mem_iff_getElem?.1 hm
    obtain ⟨n, hn, hb⟩ := hback k m hk
    exact hc.succs_of_becomes hn hb
  have hentry (k : Nat) (m : Node) (hm : nodes[k]? = some m) (he : m.op.isEntry = true) : k = 0 := by
    obtain ⟨n, hn, hb⟩ := hback k m hm
    obtain ⟨op, hd, hfirst, -⟩ := hc.exists_op hn
    obtain rfl : m.op = op := Draft.op.inj (hb.1.symm.trans hd)
    exact hfirst.1 he
  have hcheck : b.sketch.checkNodes 0 b.sketch.nodes = .ok nodes :=
    Sketch.checkNodes_becomes hnodes 0 (fun m hm => (hsuccs m hm).1)
      (fun m hm x hx => hasNode_sketch ((hsuccs m hm).2 x hx))
      (fun k m hm he => by simp [hentry k m hm he, sketch])
  obtain ⟨n, hn, hd⟩ := hc.entry
  refine ⟨_, by simp only [Sketch.check, hasEntry_sketch hn hd, hcheck]; rfl, ⟨?_, ?_⟩, rfl, rfl⟩
  · simpa [Graph.size] using hlen.symm
  · intro id n hn
    have hid : id < nodes.length := hlen ▸ (Array.getElem?_eq_some_iff.1 hn).1
    obtain ⟨n', hn', hb⟩ := hback id nodes[id] (by simp)
    obtain rfl : n = n' := by simpa [hn] using hn'
    exact ⟨nodes[id], by simp, hb⟩

/-! ## Bodies -/

theorem start_accounts (name : String) (params : List (Param Ty)) (returns : Option Ty) :
    Accounts (start name params returns) [] := by
  have hempty (declared : Env) : Accounts { name, params, returns, declared } [] :=
    ⟨⟨by simp [breaks], by simp [IsOpen, breaks], by simp⟩, by simp⟩
  exact ((hempty _).place (.op .entry)).1

end Builder

open Builder

/-- Once the exit node is placed, the graph of a proper body is closed; there was an error if there is a
stray jump. -/
theorem layAll_closed {body : List Stmt} (hb : Stmt.allProper body = true) (name : String)
    (params : List (Param Ty)) (returns : Option Ty) :
    Closed ((layAll body (.start name params returns)).place (.op .exit)) ∧
      (layAll body (.start name params returns)).error.isSome = Stmt.anyStray false false body := by
  obtain ⟨hacc, hgrow⟩ := layAll_accounts body hb _ _ (start_accounts name params returns)
  have hinside : (start name params returns).inside = false := rfl
  have hinLoop : (start name params returns).inLoop = false := rfl
  have hentry : (start name params returns).nodes[0]? = some { draft := .op .entry, links := [[]] } := rfl
  have hsize : (start name params returns).nodes.size = 1 := rfl
  have hscopes : (start name params returns).scopes = [] := rfl
  have herror : (start name params returns).error.isSome = false := rfl
  rw [hinside, hinLoop] at hgrow
  generalize start name params returns = b at hentry hsize hscopes herror hgrow hacc ⊢
  generalize layAll body b = b' at hgrow hacc ⊢
  refine ⟨?_, by simp [hgrow.error, herror]⟩
  have hsize' := hgrow.nodes.size_le
  obtain ⟨hclosed, hnodes, -⟩ := hacc.place (.op .exit)
  have hlast : (b'.place (.op .exit)).last = b'.nodes.size := by simp [last]
  refine ⟨?_, by omega, ?_, ?_, fun id n hid hlt hn => ?_⟩
  · -- nothing is pending after the exit node, and no scope is around
    have hnone : b'.scopes = [] := by
      have hg := hgrow.scopes
      rw [hscopes] at hg
      cases hs : b'.scopes with
      | nil => rfl
      | cons s scopes => simp [hs, ScopesGrow] at hg
    have hbreaks : (b'.place (.op .exit)).breaks = [] := by simp [breaks, place_eq, hnone]
    have hpending : (b'.place (.op .exit)).pending = [] := by
      rw [place_eq]
      rfl
    simpa [hbreaks, hpending] using hclosed.held
  · obtain ⟨n, hn, hd⟩ := (hgrow.nodes.trans hnodes).draft 0 _ hentry
    exact ⟨n, hn, hd⟩
  · exact ⟨_, by rw [hlast, getElem?_place], rfl⟩
  · rw [hlast] at hlt
    obtain ⟨n', hn', hd⟩ := hnodes.draft id b'.nodes[id] (by simp)
    obtain rfl : n = n' := by simpa [hn] using hn'
    rw [hd]
    exact hgrow.laid id b'.nodes[id] (by omega) (by simp)

namespace Graph

variable (name : String) (params : List (Param Ty)) (returns : Option Ty) {body : List Stmt}

/-- A body with a stray jump has no graph. -/
theorem ofBody_of_stray (hb : Stmt.allProper body = true) (hs : Stmt.anyStray false false body = true) :
    ∃ e, ofBody name params returns body = .error e := by
  obtain ⟨-, herror⟩ := layAll_closed hb name params returns
  rw [hs, Option.isSome_iff_exists] at herror
  obtain ⟨e, he⟩ := herror
  exact ⟨_, by rw [ofBody, finish, he]⟩

/-- Every other body has a graph, and it is the one that was laid out. -/
theorem ofBody_of_not_stray (hb : Stmt.allProper body = true)
    (hs : Stmt.anyStray false false body = false) :
    ∃ g, ofBody name params returns body = .ok g ∧ g.Valid ∧
      ((layAll body (.start name params returns)).place (.op .exit)).Yields g ∧ g.entry = 0 ∧
      g.exit = g.size - 1 := by
  obtain ⟨hclosed, herror⟩ := layAll_closed hb name params returns
  rw [hs, Option.isSome_eq_false_iff, Option.isNone_iff_eq_none] at herror
  obtain ⟨g, hg, hyields, hentry, hexit⟩ := hclosed.check
  refine ⟨g, by rw [ofBody, finish, herror]; simp only [hg], Sketch.check_valid hg, hyields, hentry, ?_⟩
  rw [hexit, last, hyields.size]
  simp

/-- **Every finished graph is well formed.** A body has no graph exactly if it leaves or repeats something
that is not around. Otherwise the graph is valid, every slot of every node was linked exactly once, to a
node, the only entry is node 0, and the only exit is the last node. -/
theorem ofBody_wellFormed (name : String) (params : List (Param Ty)) (returns : Option Ty)
    (body : List Stmt) (hb : Stmt.allProper body = true) :
    ((∃ e, ofBody name params returns body = .error e) ↔ Stmt.anyStray false false body = true) ∧
      ∀ g, ofBody name params returns body = .ok g →
        g.Valid ∧
        ((layAll body (.start name params returns)).place (.op .exit)).Yields g ∧
        g.entry = 0 ∧ g.exit = g.size - 1 ∧
        ∀ (id : Nat) (n : Node), g.nodes[id]? = some n →
          (n.op.isEntry = true ↔ id = 0) ∧ (n.op = .exit ↔ id + 1 = g.size) := by
  cases hs : Stmt.anyStray false false body with
  | true =>
    obtain ⟨e, he⟩ := ofBody_of_stray name params returns hb hs
    exact ⟨⟨fun _ => rfl, fun _ => ⟨e, he⟩⟩, fun g hg => by simp [he] at hg⟩
  | false =>
    obtain ⟨g, hg, hvalid, hyields, hentry, hexit⟩ :=
      ofBody_of_not_stray name params returns hb hs
    refine ⟨by simp [hg], fun g' hg' => ?_⟩
    obtain rfl : g = g' := Except.ok.inj (hg.symm.trans hg')
    refine ⟨hvalid, hyields, hentry, hexit, fun id m hm => ?_⟩
    obtain ⟨hclosed, -⟩ := layAll_closed hb name params returns
    generalize (layAll body (.start name params returns)).place (.op .exit) = b at hyields hclosed
    obtain ⟨n, hn, hbecomes⟩ := hyields.exists_open hm
    obtain ⟨op, hd, hfirst, hlast⟩ := hclosed.exists_op hn
    obtain rfl : op = m.op := Draft.op.inj (hd.symm.trans hbecomes.1)
    have hpos := hclosed.exit_pos
    have hsize := hyields.size
    rw [last] at hlast hpos
    exact ⟨hfirst, hlast.trans (by omega)⟩

/-- A loop that is left from within a switch and from within a negated conjunction, with code that cannot
be reached. -/
def tangledBody : List Stmt :=
  [ .declare "x" none none,
    .loop none
      [ .switch "x" none
          [([.string, .number], [.leave, .call { callee := "f", args := [] }]),
            ([.null], [.again, .leave])]
          none,
        .cond (some (.not (.and (.test none) (.or (.test none) (.test none)))))
          [.leave] [.assign "x" (some (.var "x"))] ],
    .ret none,
    .throw none ]

theorem tangledBody_wellFormed :
    Stmt.allProper tangledBody = true ∧
      ∃ g, ofBody "f" [] none tangledBody = .ok g ∧ g.Valid ∧ g.entry = 0 ∧ g.exit = g.size - 1 := by
  have hproper : Stmt.allProper tangledBody = true := by decide
  have hstray : Stmt.anyStray false false tangledBody = false := by decide
  obtain ⟨herror, hgraph⟩ := ofBody_wellFormed "f" [] none tangledBody hproper
  cases hg : ofBody "f" [] none tangledBody with
  | error e =>
    have := herror.1 ⟨e, hg⟩
    simp [hstray] at this
  | ok g =>
    obtain ⟨hvalid, -, hentry, hexit, -⟩ := hgraph g hg
    exact ⟨hproper, g, rfl, hvalid, hentry, hexit⟩

end Graph
end FlowTyping
