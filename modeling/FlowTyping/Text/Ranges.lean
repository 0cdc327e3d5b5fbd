/-!
# Tables of code points

A set of characters as a table of increasing, disjoint closed ranges of code points.
-/

namespace FlowTyping.Text

/-- A set of code points: closed ranges in increasing order. -/
abbrev Ranges := Array (Nat × Nat)

namespace Ranges

/-- Index of the last range in `lo ..< hi` that starts at or below `n`, by bisection; `fuel` bounds
the number of halvings. -/
def below (ranges : Ranges) (n : Nat) : (fuel lo hi : Nat) → Nat
  | 0, lo, _ => lo
  | fuel + 1, lo, hi =>
    if hi ≤ lo + 1 then lo
    else
      let mid := (lo + hi) / 2
      match ranges[mid]? with
      | some (start, _) =>
        if start ≤ n then below ranges n fuel mid hi else below ranges n fuel lo mid
      | none => lo

/-- Whether a table has a code point. -/
def has (ranges : Ranges) (n : Nat) : Bool :=
  match ranges[below ranges n 32 0 ranges.size]? with
  | some (start, last) => start ≤ n && n ≤ last
  | none => false

end Ranges
end FlowTyping.Text
