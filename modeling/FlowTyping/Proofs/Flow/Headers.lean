import FlowTyping.Proofs.Flow.DepthFirst
import Mathlib.Data.List.Chain

/-!
# Loop headers

The loop headers are the targets of the edges that lead back in reverse postorder. Such an edge closes a
cycle, since there is a way from its target to its source. Conversely the positions cannot go up all the way
round a cycle, so one of its edges leads back. This holds of all graphs, however many ways lead into a cycle.

* **`Graph.mem_loopHeaders_iff`** — what a loop header is.
* **`Graph.IsCycle`** — the nodes of a cycle; **`Graph.exists_cycle_iff`** finds the nodes that are on one.
* **`Graph.exists_header_of_cycle`** — every cycle that can be reached has a loop header.
* **`Sketch.check_loopHeaders`** — what the loop headers of a checked graph are.
-/

namespace FlowTyping

open Relation

namespace Graph

variable {g : Graph} {x y id : Nat} {c : List Nat}

/-! ## Positions -/

theorem getD_foldl_positions {ids : List Nat} (k : Nat) (table : Std.HashMap Nat Nat) (hids : ids.Nodup) :
    ((ids.zipIdx k).foldl (fun table (id, i) => table.insert id i) table).getD x 0 =
      if x ∈ ids then k + ids.idxOf x else table.getD x 0 := by
  induction ids generalizing k table with
  | nil => simp
  | cons id ids ih =>
    obtain ⟨hid, hids⟩ := List.nodup_cons.1 hids
    rw [List.zipIdx_cons, List.foldl_cons, ih (k + 1) _ hids]
    by_cases hx : id = x
    · subst hx
      simp [hid]
    · have hmem : x ∈ id :: ids ↔ x ∈ ids := by simp [Ne.symm hx]
      by_cases hin : x ∈ ids
      · rw [if_pos hin, if_pos (hmem.2 hin), List.idxOf_cons_ne ids hx]
        omega
      · rw [if_neg hin, if_neg (mt hmem.1 hin), Std.HashMap.getD_insert, if_neg (by simpa using hx)]

/-- The position of a node in a list without repetitions. -/
theorem getD_positions {ids : List Nat} (hids : ids.Nodup) (hx : x ∈ ids) :
    (positions ids).getD x 0 = ids.idxOf x := by
  rw [positions, getD_foldl_positions 0 ∅ hids, if_pos hx, Nat.zero_add]

/-- A loop header is the target of an edge that leads back. -/
theorem mem_loopHeaders_iff :
    id ∈ g.loopHeaders ↔ id < g.size ∧ ∃ x ∈ g.reversePostorder, g.Edge x id ∧
      (positions g.reversePostorder).getD id 0 ≤ (positions g.reversePostorder).getD x 0 := by
  simp [loopHeaders, Edge]

/-- In a valid graph all edges lead to nodes of the graph, and a reachable node leads to reachable ones. -/
theorem Valid.mem_loopHeaders_iff (hg : g.Valid) :
    id ∈ g.loopHeaders ↔ ∃ x ∈ g.reversePostorder, g.Edge x id ∧
      g.reversePostorder.idxOf id ≤ g.reversePostorder.idxOf x := by
  have hpos (x : Nat) (hx : x ∈ g.reversePostorder) :
      (positions g.reversePostorder).getD x 0 = g.reversePostorder.idxOf x :=
    getD_positions (nodup_reversePostorder hg) hx
  rw [Graph.mem_loopHeaders_iff]
  constructor
  · rintro ⟨-, x, hx, hedge, hle⟩
    rw [hpos x hx, hpos id (succ_mem_reversePostorder hg hx hedge)] at hle
    exact ⟨x, hx, hedge, hle⟩
  · rintro ⟨x, hx, hedge, hle⟩
    rw [← hpos x hx, ← hpos id (succ_mem_reversePostorder hg hx hedge)] at hle
    exact ⟨hg.succs_lt hedge, x, hx, hedge, hle⟩

/-! ## Cycles -/

/-- The nodes of a cycle, one after the other: an edge leads from each to the next, and from the last to the
first. -/
def IsCycle (g : Graph) : List Nat → Prop
  | [] => False
  | x :: rest => (x :: rest ++ [x]).IsChain g.Edge

/-- Each node of a cycle is reached from each. -/
theorem IsCycle.reaches (hc : g.IsCycle c) (hx : x ∈ c) (hy : y ∈ c) : TransGen g.Edge x y := by
  cases c with
  | nil => simp at hx
  | cons first rest =>
    have hpaths : (first :: rest ++ [first]).Pairwise (TransGen g.Edge) :=
      List.isChain_iff_pairwise.1 (List.IsChain.imp (fun _ _ hedge => .single hedge) hc)
    -- on to the end, which is the first node again, and from there
    have hend : TransGen g.Edge x first := (List.pairwise_append.1 hpaths).2.2 x hx first (by simp)
    have hfrom : TransGen g.Edge first y := by
      refine (List.pairwise_cons.1 hpaths).1 y ?_
      rcases List.mem_cons.1 hy with rfl | hy <;> simp [*]
    exact hend.trans hfrom

/-- A node is on a cycle exactly if it can be reached from itself. -/
theorem exists_cycle_iff : (∃ c, g.IsCycle c ∧ x ∈ c) ↔ TransGen g.Edge x x := by
  constructor
  · rintro ⟨c, hc, hx⟩
    exact hc.reaches hx hx
  · intro hloop
    obtain ⟨y, hedge, hback⟩ := TransGen.head'_iff.1 hloop
    -- the way back ends at the node itself, which a cycle does not list again
    obtain ⟨way, hway, hlast⟩ := List.exists_isChain_cons_of_relationReflTransGen hback
    refine ⟨x :: (y :: way).dropLast, ?_, by simp⟩
    have hsplit : (y :: way).dropLast ++ [x] = y :: way := by
      rw [← hlast]
      exact List.dropLast_append_getLast (by simp)
    show (x :: ((y :: way).dropLast ++ [x])).IsChain g.Edge
    rw [hsplit]
    exact hway.cons_cons hedge

/-- No cycle is reachable exactly if none has a node that is. -/
theorem loopFree_iff_no_cycle :
    g.LoopFree ↔ ∀ c, g.IsCycle c → ∀ x ∈ c, ¬ ReflTransGen g.Edge g.entry x := by
  constructor
  · intro hl c hc x hx hreach
    exact hl x hreach (hc.reaches hx hx)
  · intro hnone x hreach hloop
    obtain ⟨c, hc, hx⟩ := exists_cycle_iff.2 hloop
    exact hnone c hc x hx hreach

/-! ## Headers on cycles -/

/-- A loop header is reachable and on a cycle: the edge that leads back to it closes one. -/
theorem reaches_loopHeader (hg : g.Valid) (hid : id ∈ g.loopHeaders) :
    ReflTransGen g.Edge g.entry id ∧ TransGen g.Edge id id := by
  obtain ⟨x, hx, hedge, hle⟩ := hg.mem_loopHeaders_iff.1 hid
  have hback : ReflTransGen g.Edge id x := by
    by_contra hnone
    exact Nat.not_lt.2 hle (idxOf_lt_of_edge hg hx hedge hnone)
  exact ⟨((mem_reversePostorder_iff hg).1 hx).tail hedge, TransGen.tail' hback hedge⟩

/-- Every cycle that can be reached has a loop header. -/
theorem exists_header_of_cycle (hg : g.Valid) (hc : g.IsCycle c) (hx : x ∈ c)
    (hreach : ReflTransGen g.Edge g.entry x) : ∃ id ∈ c, id ∈ g.loopHeaders := by
  by_contra hnone
  -- without one, positions go up on each edge of the cycle
  have hup (y : Nat) (hy : y ∈ c) (z : Nat) (hz : z ∈ c) (hedge : g.Edge y z) :
      g.reversePostorder.idxOf y < g.reversePostorder.idxOf z := by
    by_contra hle
    have hy' : y ∈ g.reversePostorder :=
      (mem_reversePostorder_iff hg).2 (hreach.trans (hc.reaches hx hy).to_reflTransGen)
    exact hnone ⟨z, hz, hg.mem_loopHeaders_iff.2 ⟨y, hy', hedge, Nat.not_lt.1 hle⟩⟩
  cases c with
  | nil => simp at hx
  | cons first rest =>
    have hmem (y : Nat) (hy : y ∈ first :: rest ++ [first]) : y ∈ first :: rest := by
      rcases List.mem_append.1 hy with hy | hy
      · exact hy
      · exact List.mem_singleton.1 hy ▸ List.mem_cons_self
    have hchain : ((first :: rest ++ [first]).map fun y => g.reversePostorder.idxOf y).IsChain (· < ·) :=
      (List.isChain_map _).2
        (List.IsChain.imp_of_mem_imp (fun y z hy hz => hup y (hmem y hy) z (hmem z hz)) hc)
    exact Nat.lt_irrefl _ (hchain.rel_cons (by simp))

/-- The loop headers are picked from the nodes in order. -/
theorem loopHeaders_increasing (g : Graph) : g.loopHeaders.Pairwise (· < ·) :=
  List.pairwise_lt_range.filter _

end Graph

/-- **The loop headers of a checked graph** are on cycles that can be reached from the entry, and each such
cycle has one. So there are none exactly if the graph is loop-free. They are listed in increasing order. -/
theorem Sketch.check_loopHeaders (sketch : Sketch) (g : Graph) (hcheck : sketch.check = .ok g) :
    (∀ id ∈ g.loopHeaders, ReflTransGen g.Edge g.entry id ∧ ∃ c, g.IsCycle c ∧ id ∈ c) ∧
      (∀ c, g.IsCycle c → (∃ x ∈ c, ReflTransGen g.Edge g.entry x) → ∃ id ∈ c, id ∈ g.loopHeaders) ∧
      (g.loopHeaders = [] ↔ g.LoopFree) ∧
      g.loopHeaders.Pairwise (· < ·) := by
  have hg := check_valid hcheck
  refine ⟨fun id hid => ?_, fun c hc => ?_, ⟨fun hnil => ?_, fun hl => ?_⟩, g.loopHeaders_increasing⟩
  · obtain ⟨hreach, hloop⟩ := Graph.reaches_loopHeader hg hid
    exact ⟨hreach, Graph.exists_cycle_iff.2 hloop⟩
  · rintro ⟨x, hx, hreach⟩
    exact Graph.exists_header_of_cycle hg hc hx hreach
  · refine Graph.loopFree_iff_no_cycle.2 fun c hc x hx hreach => ?_
    obtain ⟨id, -, hid⟩ := Graph.exists_header_of_cycle hg hc hx hreach
    simp [hnil] at hid
  · refine List.eq_nil_iff_forall_not_mem.2 fun id hid => ?_
    obtain ⟨hreach, hloop⟩ := Graph.reaches_loopHeader hg hid
    exact hl id hreach hloop

namespace Graph

/-- Some node of the loop with two ways in is a header, and so is the one that leads to itself. The node before
the loop is not. -/
theorem twoWays_headers :
    twoWaysSketch.check = .ok twoWays ∧ (∃ id ∈ [2, 3], id ∈ twoWays.loopHeaders) ∧
      2 ∈ twoWays.loopHeaders ∧ 1 ∉ twoWays.loopHeaders := by
  obtain ⟨hon, hcut, -, -⟩ := Sketch.check_loopHeaders twoWaysSketch twoWays rfl
  have hreach : ReflTransGen twoWays.Edge twoWays.entry 2 :=
    (ReflTransGen.single (b := 1) (by simp [Edge, succs, twoWays])).tail
      (by simp [Edge, succs, twoWays])
  refine ⟨rfl, hcut [2, 3] ?_ ⟨2, by simp, hreach⟩, ?_, fun hone => ?_⟩
  · simp [IsCycle, Edge, succs, twoWays]
  · -- this node leads to itself
    obtain ⟨id, hid, hheader⟩ := hcut [2] (by simp [IsCycle, Edge, succs, twoWays])
      ⟨2, by simp, hreach⟩
    exact List.mem_singleton.1 hid ▸ hheader
  · obtain ⟨-, c, hc, hmem⟩ := hon 1 hone
    obtain ⟨y, hedge, hback⟩ := TransGen.head'_iff.1 (hc.reaches hmem hmem)
    have hy : 2 ≤ y := by
      have hcases : y = 2 ∨ y = 3 := by simpa [Edge, succs, twoWays] using hedge
      omega
    exact absurd ((twoWays_stays hback).1 hy) (by omega)

end Graph
end FlowTyping
