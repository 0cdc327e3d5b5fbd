import FlowTyping.Flow.Graph
import Std.Data.HashMap
import Std.Data.HashSet

/-!
# Orders on flow graphs

A depth-first search from the entry gives the reachable nodes in reverse postorder: every node stands
before its successors, except along edges that close a loop. The targets of those edges are the loop
headers.
-/

namespace FlowTyping.Graph

/-- A depth-first search under way: the nodes met, and those left again, the latest first. -/
structure Search where
  seen : Std.HashSet Nat := ∅
  left : List Nat := []

/-- Searches from a node that was not met yet, at most `fuel` edges deep. -/
def search (g : Graph) : (fuel : Nat) → Nat → Search → Search
  | 0, _, s => s
  | fuel + 1, id, s =>
    let s := { s with seen := s.seen.insert id }
    let s := (g.succs id).foldl
      (fun s next => if s.seen.contains next then s else search g fuel next s) s
    { s with left := id :: s.left }

/-- The nodes reachable from the entry, each before its successors except along edges that close a
loop. A path that meets new nodes only is at most as long as there are nodes. -/
def reversePostorder (g : Graph) : List Nat := (g.search (g.size + 1) g.entry {}).left

/-- The positions of nodes in a list. -/
def positions (ids : List Nat) : Std.HashMap Nat Nat :=
  ids.zipIdx.foldl (fun table (id, i) => table.insert id i) ∅

/-- The targets of edges that lead back in reverse postorder, in order. -/
def loopHeaders (g : Graph) : List Nat :=
  let order := g.reversePostorder
  let position := positions order
  let isBack (id next : Nat) : Bool := position.getD next 0 ≤ position.getD id 0
  let targets := order.flatMap fun id => (g.succs id).filter (isBack id)
  (List.range g.size).filter fun id => targets.contains id

end FlowTyping.Graph
