/-!
# How far two words are apart

The distance of two words is the least number of characters that have to be put in, taken out or
replaced to make one of the other. `distance` keeps one row of the usual table: the distances of the
word read so far to every prefix of the other word.
-/

namespace FlowTyping.Text

variable {α : Type} [BEq α]

/-- The next row of the table. `left` is the entry before, `diagonal` the entry above that one, and
`above` the entries that are still to come of the row above. -/
def nextRow (a : α) (left diagonal : Nat) : List α → (above : List Nat) → List Nat
  | b :: bs, up :: above =>
    let here := if a == b then diagonal else min diagonal (min left up) + 1
    here :: nextRow a here up bs above
  | _, _ => []

/-- One row after the other, for the first word read from its beginning. -/
def lastRow (target : List α) : (read : Nat) → (row : List Nat) → List α → List Nat
  | _, row, [] => row
  | read, row, a :: rest =>
    lastRow target (read + 1)
      ((read + 1) :: nextRow a (read + 1) (row.headD 0) target row.tail) rest

/-- The least number of items to put in, take out or replace. -/
def distance (a b : List α) : Nat :=
  (lastRow b 0 (List.range (b.length + 1)) a).getLastD 0

end FlowTyping.Text
