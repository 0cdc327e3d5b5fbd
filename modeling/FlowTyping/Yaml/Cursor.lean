/-!
# Places in a text

A cursor stands before a character of a text and knows the line and the column of it. It moves forward
only, over characters and line breaks.

* `Cursor.skip` passes over one character, `Cursor.skipLine` over one line break.
* `Cursor.skipWhile` and `Cursor.readWhile` pass over all characters of a class.
* `Cursor.skipComments` passes over a comment and the comments on the lines below it.
-/

namespace FlowTyping.Yaml

/-- A text that is no document, with the line at which that showed. -/
structure Fault where
  line : Nat
  deriving DecidableEq, Repr

/-! ## Classes of characters -/

/-- Whether a document may have the character. -/
def isAllowed (c : Char) : Bool :=
  let n := c.toNat
  n = 0x09 || n = 0x0a || n = 0x0d || (0x20 ≤ n && n ≤ 0x7e) || n = 0x85 ||
    (0xa0 ≤ n && n ≤ 0xfffd) || 0x10000 ≤ n

def isBlank (c : Char) : Bool := c = ' ' || c = '\t'

/-- Whether a character breaks the line: a line feed, a carriage return, or one of three separators. -/
def isBreak (c : Char) : Bool :=
  c = '\n' || c = '\r' || c = '\u0085' || c = '\u2028' || c = '\u2029'

/-- Whether a character is part of a name. -/
def isNamePart (c : Char) : Bool := c.isAlphanum || c = '_' || c = '-'

/-- Whether a line break or the end of the text comes next. -/
def endsLine : List Char → Bool
  | [] => true
  | c :: _ => isBreak c

/-- Whether a blank, a line break or the end of the text comes next. -/
def endsWord : List Char → Bool
  | [] => true
  | c :: _ => isBlank c || isBreak c

/-! ## Cursors -/

/-- A place: how many characters and lines come before it, and its column. -/
structure Mark where
  index : Nat := 0
  line : Nat := 0
  column : Nat := 0
  deriving DecidableEq, Repr, Inhabited

/-- A place in a text, with what follows it. -/
structure Cursor where
  rest : List Char
  mark : Mark := {}
  /-- Whether a line break was passed after the last character that is no blank. -/
  broken : Bool := false
  deriving Repr, Inhabited

namespace Cursor

/-- The fault that shows here. -/
def fault (c : Cursor) : Fault := { line := c.mark.line + 1 }

/-- Passes over a character. -/
def skip (c : Cursor) : Cursor :=
  match c.rest with
  | [] => c
  | ch :: cs =>
    { rest := cs, mark := { c.mark with index := c.mark.index + 1, column := c.mark.column + 1 },
      broken := c.broken && isBlank ch }

/-- Passes over characters. -/
def skipMany : Nat → Cursor → Cursor
  | 0, c => c
  | n + 1, c => skipMany n c.skip

/-- The place at the start of the next line, behind a break of so many characters. -/
def nextLine (c : Cursor) (width : Nat) (rest : List Char) : Cursor :=
  { rest, mark := { index := c.mark.index + width, line := c.mark.line + 1 }, broken := true }

/-- Passes over a line break. -/
def skipLine (c : Cursor) : Cursor :=
  match c.rest with
  | '\r' :: '\n' :: cs => c.nextLine 2 cs
  | ch :: cs => if isBreak ch then c.nextLine 1 cs else c
  | [] => c

/-- What the line break here stands for in a text. -/
def lineBreak (c : Cursor) : List Char :=
  match c.rest with
  | ch :: _ => if ch = '\u2028' || ch = '\u2029' then [ch] else ['\n']
  | [] => []

/-- Passes over characters as long as they are of a class. -/
def skipWhile (p : Char → Bool) (c : Cursor) : Cursor := go c.rest c
where
  go : List Char → Cursor → Cursor
    | [], c => c
    | ch :: cs, c => if p ch then go cs c.skip else c

/-- Reads characters as long as they are of a class. -/
def readWhile (p : Char → Bool) (c : Cursor) : List Char × Cursor := (c.rest.takeWhile p, c.skipWhile p)

/-- Whether a character stands here. -/
def isAt (ch : Char) (c : Cursor) : Bool := c.rest.head? = some ch

/-- Whether a line break stands here. -/
def atBreak (c : Cursor) : Bool := c.rest.head?.any isBreak

/-- Whether a line of three such characters begins here. -/
def atRule (ch : Char) (c : Cursor) : Bool :=
  c.mark.column = 0 && [ch, ch, ch].isPrefixOf c.rest && endsWord (c.rest.drop 3)

/-- Whether a line that divides documents begins here. -/
def atMarker (c : Cursor) : Bool := c.atRule '-' || c.atRule '.'

/-! ## Comments -/

/-- How far a reader looks for the next comment. -/
def commentReach : Nat := 512

/-- Passes over the rest of the line. -/
def skipToBreak (c : Cursor) : Cursor := c.skipWhile fun ch => !isBreak ch

/-- Passes over a comment that follows on the same line. -/
def skipLineComment (c : Cursor) : Cursor :=
  let blanks := (c.rest.takeWhile isBlank).length
  if !c.broken && blanks < commentReach && (c.rest.drop blanks).head? = some '#' then
    (c.skipWhile isBlank).skipToBreak
  else c

/-- Passes over blanks and line breaks up to a character. -/
def skipTo (width : Nat) (c : Cursor) : Cursor :=
  match width with
  | 0 => c
  | 1 => if c.atBreak then c.skipLine else c.skip
  | n + 2 =>
    match c.rest with
    | '\r' :: '\n' :: _ => skipTo n c.skipLine
    | _ => skipTo (n + 1) (if c.atBreak then c.skipLine else c.skip)

/-- Passes over a comment and those that follow with nothing but blanks and line breaks in between. -/
def skipComments (c : Cursor) : Cursor := go c.rest c
where
  /-- Every comment has a character, so the characters bound the number of comments. -/
  go : List Char → Cursor → Cursor
    | [], c => c
    | _ :: fuel, c =>
      let c := c.skipToBreak
      let gap := c.rest.takeWhile fun ch => isBlank ch || ch = '\n' || ch = '\r'
      if !gap.isEmpty && gap.length < commentReach && (c.rest.drop gap.length).head? = some '#' then
        go fuel (c.skipTo gap.length)
      else c

end Cursor
end FlowTyping.Yaml
