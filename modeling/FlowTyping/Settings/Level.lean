import FlowTyping.Text.Integer

/-!
# Log levels

A level is a number; four of them have names, and the others are written by the distance from the
next name below: `info-1`, `ERROR+2`.
-/

namespace FlowTyping.LogLevel

-- a power of whole numbers is the core one, whatever algebra is in scope
attribute [local instance (1100)] instPowNat

/-- The names with their levels. -/
def names : List (String × Int) := [("DEBUG", -4), ("INFO", 0), ("WARN", 4), ("ERROR", 8)]

/-- Why a text is no level. -/
inductive Fault where
  | unknownName (text : String)
  | badOffset (text offset : String) (fault : Text.NumberFault)
  deriving DecidableEq, Repr

def Fault.message : Fault → String
  | .unknownName text => "slog: level string " ++ Text.quoteText text ++ ": unknown name"
  | .badOffset text offset fault =>
    "slog: level string " ++ Text.quoteText text ++ ": " ++ fault.message "strconv.Atoi" offset

/-- The upper case of a letter of a name; the dotless i also has `I` as its upper case. -/
def upper (c : Char) : Char := if c = 'ı' then 'I' else c.toUpper

/-- Whether a sign stands here. -/
def isSign (c : Char) : Bool := c = '+' || c = '-'

/-- The level of a text: a name in any case, with an offset or without. The sum is kept in 64 bits, past
the largest it goes on from the smallest. -/
def read (text : String) : Except Fault Int := do
  let cs := text.toList
  let name := cs.takeWhile (!isSign ·)
  let rest := String.ofList (cs.dropWhile (!isSign ·))
  let offset ←
    if rest.isEmpty then pure 0
    else (Text.readInteger rest).mapError (.badOffset text rest)
  match names.lookup (String.ofList (name.map upper)) with
  | some base => return (base + offset).bmod (2 ^ (64 : Nat))
  | none => throw (.unknownName text)

/-- A name with the distance from its level. -/
def relative (name : String) (distance : Int) : String :=
  if distance = 0 then name
  else name ++ (if 0 < distance then "+" else "") ++ toString distance

/-- A level in print. -/
def render (level : Int) : String :=
  if level < 0 then relative "DEBUG" (level + 4)
  else if level < 4 then relative "INFO" level
  else if level < 8 then relative "WARN" (level - 4)
  else relative "ERROR" (level - 8)

end FlowTyping.LogLevel
