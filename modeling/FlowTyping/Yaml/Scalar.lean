import FlowTyping.Text.Quoted
import FlowTyping.Yaml.Cursor

/-!
# The text of scalars

A scalar stands in quotes, in a block of its own, or plainly. One in quotes or a plain one may go over
several lines: a single line break between them is a blank in its text, and of several the first is left out.
The lines of a block are kept, or folded in the same way.

* `readSingle` and `readDouble` read a scalar in quotes.
* `readPlain` reads a plain scalar; it ends at a comment, at the colon behind a key, and at a line that is
  not indented enough.
* `readBlock` reads a block.
-/

namespace FlowTyping.Yaml

/-! ## Blanks and line breaks inside of a scalar -/

/-- Blanks and line breaks between two words of a scalar. -/
structure Gap where
  /-- Blanks before any line break, the last one first. -/
  blanks : List Char := []
  /-- The first line break, as a text. -/
  first : List Char := []
  /-- The line breaks after the first one, the last one first. -/
  more : List Char := []
  /-- Whether there was a line break. -/
  broken : Bool := false
  deriving Repr

namespace Gap

/-- What a gap stands for: its blanks, or its line breaks with a single one folded. -/
def text (g : Gap) : List Char :=
  if !g.broken then g.blanks.reverse
  else if g.first = ['\n'] then if g.more.isEmpty then [' '] else g.more.reverse
  else g.first ++ g.more.reverse

/-- Reads a gap on. -/
def read (g : Gap) (c : Cursor) : Gap × Cursor := go c.rest g c
where
  /-- The characters bound the number of blanks and breaks. -/
  go : List Char → Gap → Cursor → Gap × Cursor
    | [], g, c => (g, c)
    | _ :: fuel, g, c =>
      match c.rest with
      | [] => (g, c)
      | ch :: _ =>
        if isBlank ch then
          go fuel (if g.broken then g else { g with blanks := ch :: g.blanks }) c.skip
        else if isBreak ch then
          let g :=
            if g.broken then { g with more := c.lineBreak.reverse ++ g.more }
            else { g with blanks := [], first := c.lineBreak, broken := true }
          go fuel g c.skipLine
        else (g, c)

end Gap

/-! ## Quotes -/

/-- The characters that escapes of one letter stand for. -/
def letterEscapes : List (Char × Nat) :=
  [('0', 0), ('a', 7), ('b', 8), ('t', 9), ('\t', 9), ('n', 10), ('v', 11), ('f', 12), ('r', 13),
    ('e', 27), (' ', 32), ('"', 34), ('\'', 39), ('\\', 92), ('N', 0x85), ('_', 0xA0),
    ('L', 0x2028), ('P', 0x2029)]

/-- The escapes that are followed by a number, with the number of its digits. -/
def numberEscapes : List (Char × Nat) := [('x', 2), ('u', 4), ('U', 8)]

/-- The value of so many hexadecimal digits. -/
def hexNumber? (digits : List Char) : Option Nat :=
  digits.foldlM (fun n c => (Text.hexValue? c).map (16 * n + ·)) 0

/-- Reads an escape from its backslash on: the character it stands for. -/
def readEscape (c : Cursor) : Except Fault (Char × Cursor) :=
  match c.rest with
  | _ :: letter :: rest =>
    match letterEscapes.lookup letter, numberEscapes.lookup letter with
    | some n, _ => .ok (Char.ofNat n, c.skipMany 2)
    | none, some width =>
      match hexNumber? (rest.take width) with
      | some n =>
        if Text.isScalar n && width ≤ (rest.take width).length then
          .ok (Char.ofNat n, c.skipMany (2 + width))
        else .error c.fault
      | none => .error c.fault
    | none, none => .error c.fault
  | _ => .error c.fault

/-- What comes next in a scalar in quotes. -/
inductive Piece where
  | char (c : Char)
  /-- A line break that is left out. -/
  | join
  /-- The end of a word: a quote, a blank or a line break. -/
  | stop

/-- Reads the next piece of a scalar in quotes. -/
def readPiece (single : Bool) (c : Cursor) : Except Fault (Piece × Cursor) :=
  match c.rest with
  | [] => .ok (.stop, c)
  | ch :: rest =>
    if isBlank ch || isBreak ch then .ok (.stop, c)
    else if single then
      if ch ≠ '\'' then .ok (.char ch, c.skip)
      else if rest.head? = some '\'' then .ok (.char ch, c.skipMany 2)
      else .ok (.stop, c)
    else if ch = '"' then .ok (.stop, c)
    else if ch ≠ '\\' then .ok (.char ch, c.skip)
    else if rest.head?.any isBreak then .ok (.join, c.skip.skipLine)
    else do
      let (ch, c) ← readEscape c
      return (.char ch, c)

/-- Reads a word of a scalar in quotes, and says whether a line break that is left out ended it. The text
is held with its last character first. -/
def readQuotedWord (single : Bool) (text : List Char) (c : Cursor) :
    Except Fault (List Char × Bool × Cursor) :=
  go c.rest text c
where
  /-- The characters bound the number of pieces. -/
  go : List Char → List Char → Cursor → Except Fault (List Char × Bool × Cursor)
    | [], text, c => .ok (text, false, c)
    | _ :: fuel, text, c => do
      match ← readPiece single c with
      | (.char ch, c) => go fuel (ch :: text) c
      | (.join, c) => return (text, true, c)
      | (.stop, c) => return (text, false, c)

/-- Reads a scalar in quotes, from behind the first quote. A line that divides documents may not begin inside
of it. -/
def readQuoted (single : Bool) (c : Cursor) : Except Fault (List Char × Cursor) :=
  go (' ' :: c.rest) [] c
where
  /-- The characters bound the number of words. -/
  go : List Char → List Char → Cursor → Except Fault (List Char × Cursor)
    | [], _, c => .error c.fault
    | _ :: fuel, text, c => do
      if c.atMarker || c.rest.isEmpty then throw c.fault
      else
        let (text, joined, c) ← readQuotedWord single text c
        if c.isAt (if single then '\'' else '"') then return (text.reverse, c.skip)
        else
          let (gap, c) := Gap.read { broken := joined } c
          go fuel (gap.text.reverse ++ text) c

/-! ## Plain scalars -/

/-- Whether a plain scalar ends before this text; in brackets some marks end it too. -/
def endsPlain (flow : Bool) : List Char → Bool
  | [] => true
  | c :: rest =>
    (c = ':' && endsWord rest) || (flow && [',', '?', '[', ']', '\x7b', '\x7d'].contains c)

/-- Reads a word of a plain scalar. The text is held with its last character first. -/
def readPlainWord (flow : Bool) (text : List Char) (c : Cursor) : List Char × Cursor := go c.rest text c
where
  go : List Char → List Char → Cursor → List Char × Cursor
    | [], text, c => (text, c)
    | ch :: cs, text, c =>
      if endsWord (ch :: cs) || endsPlain flow (ch :: cs) then (text, c)
      else go cs (ch :: text) c.skip

/-- Whether a tab in the indentation of a line comes before a column. -/
def tabBefore (column : Nat) (start stop : Cursor) : Bool :=
  go start.rest start false
where
  go : List Char → Cursor → Bool → Bool
    | [], _, _ => false
    | _ :: fuel, c, broken =>
      if stop.mark.index ≤ c.mark.index then false
      else if c.atBreak then go fuel c.skipLine true
      else (broken && c.mark.column < column && c.isAt '\t') || go fuel c.skip broken

/-- Reads a plain scalar whose lines are indented at least to a column, and says whether it ends behind a
line break. -/
def readPlain (flow : Bool) (column : Nat) (c : Cursor) : Except Fault (List Char × Bool × Cursor) :=
  go (' ' :: c.rest) [] {} c
where
  /-- The characters bound the number of words. -/
  go : List Char → List Char → Gap → Cursor → Except Fault (List Char × Bool × Cursor)
    | [], text, gap, c => .ok (text.reverse, gap.broken, c)
    | _ :: fuel, text, gap, c =>
      if c.atMarker || c.isAt '#' then .ok (text.reverse, gap.broken, c)
      else
        let (longer, after) := readPlainWord flow (gap.text.reverse ++ text) c
        let moved := c.mark.index < after.mark.index
        if !moved || !(after.rest.head?.any fun ch => isBlank ch || isBreak ch) then
          .ok (if moved then (longer.reverse, false, after) else (text.reverse, gap.broken, c))
        else
          let (gap, next) := Gap.read {} after
          if tabBefore column after next then .error next.fault
          else if !flow && next.mark.column < column then .ok (longer.reverse, gap.broken, next)
          else go fuel longer gap next

/-! ## Blocks -/

/-- What becomes of the line breaks at the end of a block. -/
inductive Chomp where
  /-- All are dropped. -/
  | strip
  /-- The first is kept. -/
  | clip
  /-- All are kept. -/
  | keep
  deriving DecidableEq, Repr

/-- Reads how the end of a block is treated. -/
def readChomp (c : Cursor) : Option Chomp × Cursor :=
  if c.isAt '+' then (some .keep, c.skip) else if c.isAt '-' then (some .strip, c.skip) else (none, c)

/-- Reads by how much a block is indented. -/
def readIndent (c : Cursor) : Except Fault (Option Nat × Cursor) :=
  match c.rest with
  | ch :: _ =>
    if ch = '0' then .error c.fault
    else if ch.isDigit then .ok (some (ch.toNat - 48), c.skip)
    else .ok (none, c)
  | [] => .ok (none, c)

/-- Reads what stands behind the mark of a block, in either order. -/
def readBlockHead (c : Cursor) : Except Fault (Chomp × Option Nat × Cursor) := do
  match readChomp c with
  | (some chomp, c) =>
    let (indent, c) ← readIndent c
    return (chomp, indent, c)
  | (none, c) =>
    match ← readIndent c with
    | (none, c) => return (.clip, none, c)
    | (some indent, c) =>
      let (chomp, c) := readChomp c
      return (chomp.getD .clip, some indent, c)

/-- Passes over indentation up to a column and over empty lines. Gives the line breaks, the last one first,
and the widest indentation. -/
def readBlockBreaks (column : Option Nat) (c : Cursor) :
    Except Fault (List Char × Nat × Cursor) :=
  go (' ' :: c.rest) [] 0 c
where
  /-- Whether the indentation goes on here. -/
  inside (c : Cursor) : Bool := column.all (c.mark.column < ·)
  /-- Passes over the indentation. -/
  indentation : List Char → Cursor → Cursor
    | ' ' :: cs, c => if inside c then indentation cs c.skip else c
    | _, c => c
  /-- The characters bound the number of lines. -/
  go : List Char → List Char → Nat → Cursor → Except Fault (List Char × Nat × Cursor)
    | [], breaks, widest, c => .ok (breaks, widest, c)
    | _ :: fuel, breaks, widest, c =>
      let c := indentation c.rest c
      let widest := max widest c.mark.column
      if inside c && c.isAt '\t' then .error c.fault
      else if c.atBreak then go fuel (c.lineBreak.reverse ++ breaks) widest c.skipLine
      else .ok (breaks, widest, c)

/-- A block in the making. Texts are held with their last character first. -/
structure BlockText where
  text : List Char := []
  /-- The line break behind the last line. -/
  first : List Char := []
  /-- The line breaks of the empty lines after it. -/
  more : List Char
  /-- Whether the last line begins with a blank. -/
  indented : Bool := false

/-- Reads the lines of a block that begin at a column. -/
def readBlockLines (literal : Bool) (column : Nat) (b : BlockText) (c : Cursor) :
    Except Fault (BlockText × Cursor) :=
  go (' ' :: c.rest) b c
where
  /-- The characters bound the number of lines. -/
  go : List Char → BlockText → Cursor → Except Fault (BlockText × Cursor)
    | [], b, c => .ok (b, c)
    | _ :: fuel, b, c => do
      if c.mark.column ≠ column || c.rest.isEmpty then return (b, c)
      else
        let indented := c.rest.head?.any isBlank
        let folds := !literal && !b.indented && !indented && b.first = ['\n']
        let first := if !folds then b.first else if b.more.isEmpty then [' '] else []
        let (line, c) := c.readWhile fun ch => !isBreak ch
        let (more, _, next) ← readBlockBreaks (some column) c.skipLine
        go fuel
          { text := line.reverse ++ (b.more ++ (first ++ b.text)), first := c.lineBreak, more, indented }
          next

/-- Reads a block, from behind its mark. `indent` is the column of the collection that it stands in. -/
def readBlock (literal : Bool) (indent : Int) (c : Cursor) : Except Fault (List Char × Cursor) := do
  let (chomp, increment, c) ← readBlockHead c
  let c := c.skipWhile isBlank
  let c := if c.isAt '#' then c.skipToBreak else c
  if !endsLine c.rest then throw c.fault
  else
    let given := increment.map fun n => if 0 ≤ indent then indent.toNat + n else n
    let (more, widest, c) ← readBlockBreaks given c.skipLine
    let column := given.getD (max widest (max (indent + 1).toNat 1))
    let (b, c) ← readBlockLines literal column { more } c
    let text := if chomp = .strip then b.text else b.first ++ b.text
    return ((if chomp = .keep then b.more ++ text else text).reverse, c)

end FlowTyping.Yaml
