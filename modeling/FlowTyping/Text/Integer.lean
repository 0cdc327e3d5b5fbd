import FlowTyping.Text.Quoted

/-!
# Integers and truth values in text

How settings are written in variables and on the command line. Integers have 64 bits.

* `readInteger` reads an optional sign and decimal digits.
* `readAnyBase` also reads `0x1f`, `0o17`, `0b11` and `017`, and underscores between digits.
-/

namespace FlowTyping.Text

-- a power of whole numbers is the core one, whatever algebra is in scope
attribute [local instance (1100)] instPowNat

/-- Why a text is no number. -/
inductive NumberFault where
  | invalid
  | range
  deriving DecidableEq, Repr

/-- What is said of a text that a reader refuses. -/
def NumberFault.message (reader text : String) (f : NumberFault) : String :=
  reader ++ ": parsing " ++ quoteText text ++ ": " ++
    match f with
    | .invalid => "invalid syntax"
    | .range => "value out of range"

/-- One more digit behind a number: a character that is no digit of the base is a fault, and so is a
value that 64 bits cannot hold. -/
def pushDigit (base value : Nat) (c : Char) : Except NumberFault Nat :=
  match hexValue? c with
  | some d =>
    if d < base then
      if value * base + d < 2 ^ (64 : Nat) then .ok (value * base + d) else .error .range
    else .error .invalid
  | none => .error .invalid

/-- The value of digits in a base. They are read from the left, so the first fault decides: a number
that grows too large before a stray character is out of range. -/
def digitsValue (base : Nat) (digits : List Char) : Except NumberFault Nat :=
  if digits.isEmpty then .error .invalid else digits.foldlM (pushDigit base) 0

/-- A number with its sign, if it fits into 64 bits. -/
def signed (negative : Bool) (n : Nat) : Except NumberFault Int :=
  if negative then if n ≤ 2 ^ (63 : Nat) then .ok (-n) else .error .range
  else if n < 2 ^ (63 : Nat) then .ok n
  else .error .range

/-- The sign of a number and the rest of it. -/
def splitSign : List Char → Bool × List Char
  | '-' :: rest => (true, rest)
  | '+' :: rest => (false, rest)
  | cs => (false, cs)

/-- A decimal integer. -/
def readInteger (text : String) : Except NumberFault Int :=
  let (negative, digits) := splitSign text.toList
  (digitsValue 10 digits).bind (signed negative)

/-- The base that the first characters of a number announce, and its digits. A leading zero announces
base eight. -/
def announcedBase : List Char → Nat × List Char
  | '0' :: 'x' :: rest | '0' :: 'X' :: rest => (16, rest)
  | '0' :: 'o' :: rest | '0' :: 'O' :: rest => (8, rest)
  | '0' :: 'b' :: rest | '0' :: 'B' :: rest => (2, rest)
  | '0' :: c :: rest => (8, c :: rest)
  | cs => (10, cs)

/-- Whether every underscore stands before a digit and behind a digit or the announcement of a base;
`behind` says whether the first one would. -/
def underscoresFit (behind : Bool) : List Char → Bool
  | [] => true
  | ['_'] => false
  | '_' :: c :: rest => behind && c ≠ '_' && underscoresFit false (c :: rest)
  | _ :: rest => underscoresFit true rest

/-- An integer in any base. Misplaced underscores are noticed behind the last digit. -/
def readAnyBase (text : String) : Except NumberFault Int :=
  let (negative, cs) := splitSign text.toList
  let (base, digits) := announcedBase cs
  match digitsValue base (digits.filter (· ≠ '_')) with
  | .ok n => if underscoresFit (base ≠ 10) digits then signed negative n else .error .invalid
  | .error fault => .error fault

/-- A truth value. -/
def readBool (text : String) : Except NumberFault Bool :=
  if ["1", "t", "T", "TRUE", "true", "True"].contains text then .ok true
  else if ["0", "f", "F", "FALSE", "false", "False"].contains text then .ok false
  else .error .invalid

end FlowTyping.Text
