import FlowTyping.Number.Decimal
import FlowTyping.Text.Calendar
import FlowTyping.Text.Integer
import FlowTyping.Toml.Value

/-!
# TOML numbers and dates

A number or date is cut off the text by the characters it may hold, and then has to fit its form.

* `integer?` takes decimal digits with a sign, or `0x`, `0o`, `0b` and digits without one.
* `float?` takes a whole part with a fraction, an exponent or both, within the double-precision range.
* `date?` takes a day, a time of day, or both with a `T` or a blank between them and an offset or none.
-/

namespace FlowTyping.Toml

open FlowTyping.Text (twoDigits daysIn isOffset)

/-- Whether a character is a hexadecimal digit. -/
def isHex (c : Char) : Bool := (Text.hexValue? c).isSome

/-- Whether every underscore stands behind a digit and the last character is one; `behind` says whether
a digit stands before the first. -/
def underscoresFit (behind : Bool) : List Char → Bool
  | [] => behind
  | c :: cs => (c ≠ '_' || behind) && underscoresFit (isHex c) cs

/-- Whether a number begins with a zero that no other digit may follow. -/
def hasLeadingZero : List Char → Bool
  | '0' :: c :: _ => c ≠ 'b' && c ≠ 'o' && c ≠ 'x'
  | '-' :: '0' :: _ :: _ | '+' :: '0' :: _ :: _ => true
  | _ => false

/-- An integer. -/
def integer? (cs : List Char) : Option Scalar :=
  if underscoresFit false cs && !hasLeadingZero cs then
    (Text.readAnyBase (String.ofList cs)).toOption.map .int
  else none

/-- Whether a text is one or more digits. -/
def areDigits (cs : List Char) : Bool := !cs.isEmpty && cs.all Char.isDigit

/-- The parts of a floating-point number without its sign: the whole part, what follows the point, and
what follows the letter of the exponent. -/
structure FloatParts where
  whole : List Char
  fraction : Option (List Char)
  exponent : Option (List Char)

/-- Divides a number at its point and at the letter of its exponent. -/
def FloatParts.of (cs : List Char) : FloatParts :=
  let isExp (c : Char) : Bool := c = 'e' || c = 'E'
  let mantissa := cs.takeWhile (!isExp ·)
  ⟨mantissa.takeWhile (· ≠ '.'), (mantissa.dropWhile (· ≠ '.')).tail?, (cs.dropWhile (!isExp ·)).tail?⟩

/-- Whether the parts are those of a number: digits with underscores between them, and no zero before
other digits of the whole part. -/
def FloatParts.fit (p : FloatParts) : Bool :=
  let grouped (cs : List Char) : Bool :=
    underscoresFit false cs && areDigits (cs.filter (· ≠ '_'))
  grouped p.whole && !hasLeadingZero p.whole && p.fraction.all grouped &&
    p.exponent.all fun cs => grouped (Text.splitSign cs).2

/-- A floating-point number; one past the largest is none. -/
def float? (cs : List Char) : Option Scalar :=
  let unsigned := (Text.splitSign cs).2
  if (FloatParts.of unsigned).fit && (Number.parse (unsigned.filter (· ≠ '_'))).isSome then
    some .float
  else none

/-- A character off the front. -/
def expect (c : Char) : List Char → Option (List Char)
  | d :: rest => if d = c then some rest else none
  | [] => none

/-- Passes over a day such as `1979-05-27`. -/
def skipDay (cs : List Char) : Option (List Char) := do
  let (century, cs) ← twoDigits cs
  let (year, cs) ← twoDigits cs
  let (month, cs) ← twoDigits (← expect '-' cs)
  let (day, cs) ← twoDigits (← expect '-' cs)
  guard (1 ≤ month && month ≤ 12 && 1 ≤ day && day ≤ daysIn (century * 100 + year) month)
  return cs

/-- Passes over the fraction of a second, if there is one. -/
def skipFraction : List Char → List Char
  | '.' :: c :: rest => if c.isDigit then rest.dropWhile Char.isDigit else '.' :: c :: rest
  | cs => cs

/-- Passes over a time of day such as `07:32` or `07:32:00.5`. -/
def skipTime (cs : List Char) : Option (List Char) := do
  let (hour, cs) ← twoDigits cs
  let (minute, cs) ← twoDigits (← expect ':' cs)
  guard (hour < 24 && minute < 60)
  match cs with
  | ':' :: cs =>
    let (second, cs) ← twoDigits cs
    guard (second < 60)
    return skipFraction cs
  | cs => return cs

/-- The letters of a date in upper case, with a `T` for a blank. -/
def dateChar (c : Char) : Char :=
  if c = 'z' then 'Z' else if c = 't' || c = ' ' then 'T' else c

/-- A date, a time, or both. -/
def date? (cs : List Char) : Option Scalar :=
  let cs := cs.map dateChar
  let fits : Bool :=
    match skipDay cs with
    | some [] => true
    | some ('T' :: rest) => (skipTime rest).any fun rest => rest.isEmpty || isOffset rest
    | some _ => false
    | none => skipTime cs == some []
  if fits then some .date else none

/-- Whether a character may belong to a date behind its first digits. -/
def isDateChar (c : Char) : Bool :=
  c.isDigit || ['-', ':', 'T', 't', ' ', '.', 'Z', 'z', '+'].contains c

/-- Whether a character may belong to a floating-point number. -/
def isFloatChar (c : Char) : Bool := c.isDigit || ['_', '.', '-', '+', 'e', 'E'].contains c

/-- A text without the blanks at its end. -/
def trimEnd (cs : List Char) : List Char :=
  (cs.reverse.dropWhile fun c => c = ' ' || c = '\t').reverse

/-- Reads a number in a base whose letter has been read. -/
def readBased (letter : Char) (isDigit : Char → Bool) (cs : List Char) :
    Option (Scalar × List Char) :=
  if cs.head?.any isDigit then
    let inside (c : Char) : Bool := isDigit c || c = '_'
    (integer? ('0' :: letter :: cs.takeWhile inside)).map fun s => (s, cs.dropWhile inside)
  else none

/-- Reads a decimal number behind its sign. The first character that is neither a digit nor an
underscore decides whether it goes on as a date or as a floating-point number. -/
def readDecimal (sign cs : List Char) : Option (Scalar × List Char) :=
  let inside (c : Char) : Bool := c.isDigit || c = '_'
  let digits := cs.takeWhile inside
  let behind := cs.dropWhile inside
  if behind.head?.any (fun c => c = '-' || c = ':') && sign.isEmpty && digits.all Char.isDigit then
    (date? (trimEnd (digits ++ behind.takeWhile isDateChar))).map fun s =>
      (s, behind.dropWhile isDateChar)
  else if behind.head?.any fun c => c = '.' || c = 'e' || c = 'E' then
    (float? (sign ++ digits ++ behind.takeWhile isFloatChar)).map fun s =>
      (s, behind.dropWhile isFloatChar)
  else (integer? (sign ++ digits)).map fun s => (s, behind)

/-- Whether a number announces a base other than ten. -/
def announcesBase : List Char → Bool
  | '0' :: c :: _ => c = 'x' || c = 'o' || c = 'b'
  | _ => false

/-- Reads a number behind its sign; it is a decimal one. -/
def readSigned (sign : Char) : List Char → Option (Scalar × List Char)
  | 'i' :: 'n' :: 'f' :: rest | 'n' :: 'a' :: 'n' :: rest => some (.float, rest)
  | cs =>
    if cs.head?.any Char.isDigit && !announcesBase cs then readDecimal [sign] cs else none

/-- Reads a number or a date. -/
def readNumber : List Char → Option (Scalar × List Char)
  | '0' :: 'x' :: cs => readBased 'x' isHex cs
  | '0' :: 'o' :: cs => readBased 'o' (fun c => (Text.octalValue? c).isSome) cs
  | '0' :: 'b' :: cs => readBased 'b' (fun c => c = '0' || c = '1') cs
  | '+' :: cs => readSigned '+' cs
  | '-' :: cs => readSigned '-' cs
  | cs => readDecimal [] cs

end FlowTyping.Toml
