/-!
# Days and offsets in text

The parts that written dates have in common.
-/

namespace FlowTyping.Text

/-- Two digits off the front. -/
def twoDigits : List Char → Option (Nat × List Char)
  | a :: b :: rest =>
    if a.isDigit && b.isDigit then some ((a.toNat - 48) * 10 + (b.toNat - 48), rest) else none
  | _ => none

/-- Number of days of a month. -/
def daysIn (year month : Nat) : Nat :=
  if month = 2 then if year % 4 = 0 && (year % 100 ≠ 0 || year % 400 = 0) then 29 else 28
  else if month = 4 || month = 6 || month = 9 || month = 11 then 30
  else 31

/-- Whether a text is an offset from universal time. -/
def isOffset : List Char → Bool
  | ['Z'] => true
  | sign :: cs =>
    (sign = '+' || sign = '-') &&
      match twoDigits cs with
      | some (hour, ':' :: cs) =>
        match twoDigits cs with
        | some (minute, []) => hour ≤ 24 && minute ≤ 60
        | _ => false
      | _ => false
  | [] => false

end FlowTyping.Text
