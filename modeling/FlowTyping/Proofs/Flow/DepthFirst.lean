import FlowTyping.Proofs.Flow.Order
import Mathlib.Data.List.Basic
import Mathlib.Data.List.Perm.Subperm
import Mathlib.Logic.Relation

/-!
# Reverse postorder

When a depth-first search leaves a node, the nodes that were left before it are of two kinds. Those left
before the search met the node have no edge to it, since all their successors were met by then. Those left
since are reachable from it. So an edge that leads back in reverse postorder closes a cycle, and all other
edges lead forward. Nothing is asked of the graph: it may have self loops, shared successors and cycles with
several ways in.

* **`Graph.Search.Ordered`** — the invariant: a node is left after its successors, but for those that lead
  back to it.
* **`Graph.Search.Explores`** — what a search leaves is reachable from where it started.
* **`Graph.search_ordered`** — a search from a new node keeps the one and does the other.
* **`Sketch.check_reversePostorder`** — what the order of a checked graph has.
* **`Graph.reversePostorder_sorted`** — where no cycle can be reached from the entry (`Graph.LoopFree`), the nodes are
  in topological order, since an edge that leads back closes a cycle.
-/

namespace FlowTyping

open Relation

namespace Graph

variable {g : Graph} {s s' : Search} {x y id : Nat}

/-- An edge leads from a node to another. -/
def Edge (g : Graph) (x y : Nat) : Prop := y ∈ g.succs x

theorem lt_size_of_edge (hedge : g.Edge x y) : x < g.size := by
  unfold Edge succs at hedge
  split at hedge
  · rename_i n hn
    exact (Array.getElem?_eq_some_iff.1 hn).1
  · simp at hedge

/-! ## Searches -/

/-- The nodes that a search has left stand before their successors, all of which it has met, but for edges
that close a cycle. -/
structure Search.Ordered (g : Graph) (s : Search) : Prop where
  nodup : s.left.Nodup
  before : s.left.Pairwise fun x y => g.Edge y x → ReflTransGen g.Edge x y
  seen : ∀ x ∈ s.left, s.seen.contains x = true
  closed : ∀ x ∈ s.left, ∀ y ∈ g.succs x, s.seen.contains y = true

/-- What a search from a node has left since is reachable from there, and was not met before. -/
def Search.Explores (g : Graph) (id : Nat) (s s' : Search) : Prop :=
  ∀ x ∈ s'.left, x ∈ s.left ∨ ReflTransGen g.Edge id x ∧ s.seen.contains x = false

theorem Search.Explores.trans {s'' : Search} (hs : s.Explores g id s') (hs' : s'.Explores g id s'')
    (hmono : ∀ x, s.seen.contains x = true → s'.seen.contains x = true) : s.Explores g id s'' := by
  intro x hx
  rcases hs' x hx with hold | ⟨hreach, hunseen⟩
  · exact hs x hold
  · refine .inr ⟨hreach, ?_⟩
    rw [Bool.eq_false_iff] at hunseen ⊢
    exact fun hseen => hunseen (hmono x hseen)

section Loop

variable {fuel : Nat}

/-- What the searches from single nodes are known to do. -/
def SearchesOrdered (g : Graph) (fuel : Nat) : Prop :=
  ∀ (s : Search) (id : Nat), s.unmet g ≤ fuel → id < g.size → s.seen.contains id = false → s.Ordered g →
    (g.search fuel id s).Ordered g ∧ s.Explores g id (g.search fuel id s)

/-- The loop over the successors of a node keeps what the searches from them keep. -/
theorem foldl_search_ordered (hg : ∀ x, ∀ y ∈ g.succs x, y < g.size) (hone : SearchesOrdered g fuel)
    {succs : List Nat} (hsuccs : ∀ y ∈ succs, y ∈ g.succs id) (hf : s.unmet g ≤ fuel) (hs : s.Ordered g)
    (hloop : succs.foldl (fun s next => if s.seen.contains next then s else search g fuel next s) s = s') :
    s'.Ordered g ∧ s.Explores g id s' := by
  induction succs generalizing s with
  | nil =>
    obtain rfl : s = s' := hloop
    exact ⟨hs, fun x hx => .inl hx⟩
  | cons y ys ih =>
    have hy : g.Edge id y := hsuccs y (by simp)
    have hys : ∀ z ∈ ys, z ∈ g.succs id := fun z hz => hsuccs z (by simp [hz])
    rw [List.foldl_cons] at hloop
    cases hseen : s.seen.contains y with
    | true =>
      rw [hseen, if_pos rfl] at hloop
      exact ih hys hf hs hloop
    | false =>
      -- the rest of the loop goes on from where the search from this successor ended
      rw [hseen, if_neg (by simp)] at hloop
      obtain ⟨hext, -⟩ := search_extends hg hf (hg id y hy) hseen
      obtain ⟨hs', hexplores⟩ := hone s y hf (hg id y hy) hseen hs
      obtain ⟨hrest, hexplores'⟩ := ih hys (Nat.le_trans (Search.unmet_mono hext.seen_mono) hf) hs' hloop
      refine ⟨hrest, Search.Explores.trans (fun x hx => ?_) hexplores' hext.seen_mono⟩
      exact (hexplores x hx).imp_right fun ⟨hreach, hunseen⟩ => ⟨.head hy hreach, hunseen⟩

end Loop

/-- A search from a new node leaves all nodes before their successors, but for those that lead back. -/
theorem search_ordered (hg : ∀ x, ∀ y ∈ g.succs x, y < g.size) (fuel : Nat) : SearchesOrdered g fuel := by
  induction fuel with
  | zero =>
    intro s id hf hid hnew _
    exact absurd (Search.unmet_insert_lt hid hnew) (by omega)
  | succ fuel ih =>
    intro s id hf hid hnew hs
    have hless := Search.unmet_insert_lt hid hnew
    rw [search]
    generalize hloop : (g.succs id).foldl
      (fun s next => if s.seen.contains next then s else search g fuel next s)
      { s with seen := s.seen.insert id } = s'
    have hmet (x : Nat) (hx : s.seen.contains x = true) : (s.seen.insert id).contains x = true := by
      rw [Std.HashSet.contains_insert, hx, Bool.or_true]
    -- the loop starts with the node met and not left, so the invariant holds there
    have hstart : Search.Ordered g { s with seen := s.seen.insert id } :=
      ⟨hs.nodup, hs.before, fun x hx => hmet x (hs.seen x hx),
        fun x hx y hy => hmet y (hs.closed x hx y hy)⟩
    obtain ⟨hext, hsuccs⟩ :=
      foldl_search_extends (fun s id hf hid hs => search_extends hg hf hid hs) (hg id) (by omega) hloop
    obtain ⟨hs', hexplores⟩ := foldl_search_ordered hg ih (fun y hy => hy) (by omega) hstart hloop
    have hid' : s'.seen.contains id = true := hext.seen_mono id (by simp)
    -- a node left before this one was met has no edge to it, one left since is reachable from it
    have hback (x : Nat) (hx : x ∈ s'.left) (hedge : g.Edge x id) : ReflTransGen g.Edge id x := by
      rcases hexplores x hx with hold | ⟨hreach, -⟩
      · have hseen := hs.closed x hold id hedge
        simp [hnew] at hseen
      · exact hreach
    have hfresh : id ∉ s'.left := by
      intro hmem
      rcases hexplores id hmem with hold | ⟨-, hunseen⟩
      · have hseen := hs.seen id hold
        simp [hnew] at hseen
      · simp at hunseen
    refine ⟨⟨?_, ?_, ?_, ?_⟩, ?_⟩
    · exact List.nodup_cons.2 ⟨hfresh, hs'.nodup⟩
    · exact List.pairwise_cons.2 ⟨hback, hs'.before⟩
    · intro x hx
      rcases List.mem_cons.1 hx with rfl | hx
      · exact hid'
      · exact hs'.seen x hx
    · intro x hx
      rcases List.mem_cons.1 hx with rfl | hx
      · exact hsuccs
      · exact hs'.closed x hx
    · intro x hx
      rcases List.mem_cons.1 hx with rfl | hx
      · exact .inr ⟨.refl, hnew⟩
      · refine (hexplores x hx).imp_right fun hfar => ⟨hfar.1, ?_⟩
        have hunseen := hfar.2
        rw [Bool.eq_false_iff] at hunseen ⊢
        exact fun hseen => hunseen (hmet x hseen)

/-! ## The order -/

theorem reversePostorder_explored (hg : g.Valid) :
    (g.search (g.size + 1) g.entry {}).Ordered g ∧
      Search.Explores g g.entry {} (g.search (g.size + 1) g.entry {}) := by
  refine search_ordered (fun x y hy => hg.succs_lt hy) (g.size + 1) {} g.entry ?_ hg.entry_lt (by simp)
    ⟨by simp, by simp, by simp, by simp⟩
  exact Nat.le_trans List.countP_le_length (by simp)

theorem nodup_reversePostorder (hg : g.Valid) : g.reversePostorder.Nodup :=
  (reversePostorder_explored hg).1.nodup

/-- The nodes of the order are those reachable from the entry. -/
theorem mem_reversePostorder_iff (hg : g.Valid) :
    x ∈ g.reversePostorder ↔ ReflTransGen g.Edge g.entry x := by
  constructor
  · intro hx
    rcases (reversePostorder_explored hg).2 x hx with hnone | ⟨hreach, -⟩
    · simp at hnone
    · exact hreach
  · intro hreach
    induction hreach with
    | refl => exact entry_mem_reversePostorder hg
    | tail _ hedge ih => exact succ_mem_reversePostorder hg ih hedge

theorem head?_reversePostorder (g : Graph) : g.reversePostorder.head? = some g.entry := by
  rw [reversePostorder, search]
  rfl

/-- An edge that leads back in the order closes a cycle. -/
theorem reversePostorder_before (hg : g.Valid) :
    g.reversePostorder.Pairwise fun x y => g.Edge y x → ReflTransGen g.Edge x y :=
  (reversePostorder_explored hg).1.before

/-- An edge leads forward in the order, unless there is a way back. -/
theorem idxOf_lt_of_edge (hg : g.Valid) (hx : x ∈ g.reversePostorder) (hedge : g.Edge x y)
    (hback : ¬ ReflTransGen g.Edge y x) : g.reversePostorder.idxOf x < g.reversePostorder.idxOf y := by
  have hy : y ∈ g.reversePostorder := succ_mem_reversePostorder hg hx hedge
  have hne : x ≠ y := fun heq => hback (heq ▸ .refl)
  by_contra hle
  -- otherwise the target stands first, and an edge that leads back has a way forward
  have hlt : g.reversePostorder.idxOf y < g.reversePostorder.idxOf x := by
    have hneq : g.reversePostorder.idxOf x ≠ g.reversePostorder.idxOf y := fun heq =>
      hne ((List.idxOf_inj hx).1 heq)
    omega
  have hpair := List.pairwise_iff_getElem.1 (reversePostorder_before hg) _ _
    (List.idxOf_lt_length_of_mem hy) (List.idxOf_lt_length_of_mem hx) hlt
  rw [List.getElem_idxOf, List.getElem_idxOf] at hpair
  exact hback (hpair hedge)

end Graph

/-- **The order of a checked graph** has each node that is reachable from the entry once and no other node.
The entry stands first, and every edge leads forward, unless there is a way back from its target. -/
theorem Sketch.check_reversePostorder (sketch : Sketch) (g : Graph) (hcheck : sketch.check = .ok g) :
    (∀ x, x ∈ g.reversePostorder ↔ ReflTransGen g.Edge g.entry x) ∧
      g.reversePostorder.Nodup ∧
      g.reversePostorder.head? = some g.entry ∧
      ∀ x ∈ g.reversePostorder, ∀ y ∈ g.reversePostorder, g.Edge x y →
        g.reversePostorder.idxOf x < g.reversePostorder.idxOf y ∨ ReflTransGen g.Edge y x := by
  have hg := check_valid hcheck
  refine ⟨fun x => Graph.mem_reversePostorder_iff hg, Graph.nodup_reversePostorder hg,
    Graph.head?_reversePostorder g, fun x hx y _ hedge => ?_⟩
  by_cases hback : ReflTransGen g.Edge y x
  · exact .inr hback
  · exact .inl (Graph.idxOf_lt_of_edge hg hx hedge hback)

/-! ## A loop with two ways in -/

namespace Graph

/-- A loop with two ways in, one node of which also leads to itself, and an exit that is never reached. -/
def twoWays : Graph where
  name := "f"
  nodes := #[{ op := .entry, succs := [1] }, { op := .branch none, succs := [2, 3] },
    { op := .branch none, succs := [3, 2] }, { op := .merge, succs := [2] }, { op := .exit, succs := [] }]
  entry := 0
  exit := 4
  params := []
  returns := none
  declared := {}

/-- The loop as it would be written down. -/
def twoWaysSketch : Sketch where
  name := "f"
  nodes := [some { id := 0, draft := .op .entry, succs := [1] },
    some { id := 1, draft := .op (.branch none), succs := [2, 3] },
    some { id := 2, draft := .op (.branch none), succs := [3, 2] },
    some { id := 3, draft := .op .merge, succs := [2] }, some { id := 4, draft := .op .exit, succs := [] }]
  entry := 0
  exit := 4
  params := []
  returns := none
  declared := {}

/-- No way leads out of the loop, and none to the exit. -/
theorem twoWays_stays (hxy : ReflTransGen twoWays.Edge x y) : (2 ≤ x → 2 ≤ y) ∧ (x < 4 → y < 4) := by
  have hstep : ∀ x < 5, ∀ y ∈ twoWays.succs x, (2 ≤ x → 2 ≤ y) ∧ y < 4 := by decide
  induction hxy with
  | refl => exact ⟨id, id⟩
  | tail _ hedge ih =>
    obtain ⟨hloop, hlt⟩ := hstep _ (lt_size_of_edge hedge) _ hedge
    exact ⟨fun hx => hloop (ih.1 hx), fun _ => hlt⟩

/-- The order has the loop behind the node that leads to it, and it does not have the exit. -/
theorem twoWays_order :
    twoWaysSketch.check = .ok twoWays ∧ twoWays.reversePostorder.Nodup ∧ 4 ∉ twoWays.reversePostorder ∧
      twoWays.reversePostorder.idxOf 1 < twoWays.reversePostorder.idxOf 3 := by
  obtain ⟨hmem, hnodup, -, hforward⟩ := Sketch.check_reversePostorder twoWaysSketch twoWays rfl
  have hone : twoWays.Edge 0 1 := by simp [Edge, succs, twoWays]
  have hthree : twoWays.Edge 1 3 := by simp [Edge, succs, twoWays]
  refine ⟨rfl, hnodup, fun hexit => ?_, ?_⟩
  · exact absurd ((twoWays_stays ((hmem 4).1 hexit)).2 (by decide)) (by decide)
  · refine (hforward 1 ((hmem 1).2 (.single hone)) 3 ((hmem 3).2 (.tail (.single hone) hthree))
      hthree).resolve_right fun hback => ?_
    exact absurd ((twoWays_stays hback).1 (by decide)) (by decide)

end Graph
end FlowTyping

/-! ## Loop-free graphs -/

namespace FlowTyping.Graph

open Relation

variable {g : Graph} {x y : Nat}

/-- No cycle is reachable from the entry. -/
def LoopFree (g : Graph) : Prop := ∀ x, ReflTransGen g.Edge g.entry x → ¬ TransGen g.Edge x x

end FlowTyping.Graph
