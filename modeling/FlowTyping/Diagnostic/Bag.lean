import FlowTyping.Diagnostic.Basic

/-!
# Collections of findings

Findings are collected as they are made and listed by function, then by node; findings at one node
keep the order in which they were made.
-/

namespace FlowTyping

/-- Diagnostics in the order in which they were added. -/
structure Bag where
  items : List Diagnostic := []
  deriving Repr

namespace Bag

def add (b : Bag) (ds : List Diagnostic) : Bag := { items := b.items ++ ds }

def size (b : Bag) : Nat := b.items.length

/-- Number of diagnostics of a severity. -/
def count (b : Bag) (s : Severity) : Nat := b.items.countP fun d => d.severity = s

/-- Whether the findings make an analysis fail: an error does, and in strict mode a warning. -/
def failed (b : Bag) (strict : Bool) : Bool :=
  0 < b.count .error || (strict && 0 < b.count .warning)

/-- Whether the first diagnostic may stand before the second. -/
def inOrder (d e : Diagnostic) : Bool :=
  if d.location.function = e.location.function then d.location.node ≤ e.location.node
  else d.location.function < e.location.function

/-- All diagnostics by function and node. -/
def all (b : Bag) : List Diagnostic := b.items.mergeSort inOrder

/-- The diagnostics of one kind, in the same order. -/
def ofKind (b : Bag) (k : FindingKind) : List Diagnostic := b.all.filter fun d => d.finding.kind = k

end Bag
end FlowTyping
