import FlowTyping.Yaml.Token

/-!
# Tokens from text

Tokens are read as they are asked for and wait in a queue until they are taken. A key without a mark of its
own is known only by the colon behind it. So every token that could begin such a key is remembered, and when
the colon comes, a token for the key is put before it, and one for the mapping if the key is its first. A key
may not go over a line break or be longer than `Lexer.longestKey`.

Outside of brackets, indentation decides: a dash or key further to the right than all before it begins a
block, and a line further to the left ends those that it leaves.

* `Lexer.peek` looks at the next token, and `Lexer.take` takes it.
-/

namespace FlowTyping.Yaml

/-- A token that could begin a key. -/
structure PendingKey where
  /-- Whether it can only be a key: it stands at the column of a mapping. -/
  required : Bool
  /-- The number of the token. -/
  number : Nat
  mark : Mark
  deriving Repr

/-- A reader of tokens. -/
structure Lexer where
  here : Cursor
  /-- Whether the stream has begun. -/
  started : Bool := false
  /-- Tokens that wait, the next one first. -/
  queue : List Lexeme := []
  /-- Number of tokens taken. -/
  taken : Nat := 0
  /-- What could begin a key, for each bracket that is open and for the text around them; the innermost
  comes first. -/
  pending : List (Option PendingKey) := [none]
  /-- Number of brackets that are open. -/
  flow : Nat := 0
  /-- Whether a key without a mark may begin here. -/
  keyAllowed : Bool := true
  /-- The column of the innermost block. -/
  indent : Int := -1
  /-- The columns of the blocks around it. -/
  outer : List Int := []

namespace Lexer

/-- How many characters a key without a mark may have up to its colon. -/
def longestKey : Nat := 1024

/-- How many brackets, and how many blocks, may be open at once. -/
def deepest : Nat := 10000

/-- Whether brackets are open. -/
def inFlow (l : Lexer) : Bool := 0 < l.flow

/-- The number of the token that is put into the queue next. -/
def nextNumber (l : Lexer) : Nat := l.taken + l.queue.length

/-- Puts a token into the queue. -/
def push (l : Lexer) (token : Token) (start stop : Mark) : Lexer :=
  { l with queue := l.queue ++ [⟨token, start, stop⟩] }

/-- Puts a token before the one of a number. -/
def insert (l : Lexer) (number : Nat) (token : Token) (mark : Mark) : Lexer :=
  let place := number - l.taken
  { l with queue := l.queue.take place ++ ⟨token, mark, mark⟩ :: l.queue.drop place }

/-- Moves to a place behind a token and puts it into the queue. -/
def emit (l : Lexer) (token : Token) (after : Cursor) : Lexer :=
  { l.push token l.here.mark after.mark with here := after }

/-- Puts a mark of so many characters into the queue. -/
def emitMark (l : Lexer) (token : Token) (width : Nat) : Lexer := l.emit token (l.here.skipMany width)

/-! ## Keys -/

/-- Whether what could begin a key still can: one that must is a fault if it cannot. -/
def stillKey (l : Lexer) (k : PendingKey) : Except Fault Bool :=
  if k.mark.line < l.here.mark.line || k.mark.index + longestKey < l.here.mark.index then
    if k.required then .error l.here.fault else .ok false
  else .ok true

/-- Forgets what could begin a key at the innermost level. -/
def dropKey (l : Lexer) : Except Fault Lexer :=
  match l.pending with
  | some k :: rest => if k.required then .error l.here.fault else .ok { l with pending := none :: rest }
  | _ => .ok l

/-- Remembers that the next token could begin a key. -/
def markKey (l : Lexer) : Except Fault Lexer :=
  if l.keyAllowed then do
    let l ← l.dropKey
    let k : PendingKey :=
      { required := !l.inFlow && l.indent = l.here.mark.column, number := l.nextNumber, mark := l.here.mark }
    return { l with pending := some k :: l.pending.drop 1 }
  else .ok l

/-! ## Blocks -/

/-- Begins a block at a column that is further to the right. Its token is put at the end of the queue, or
before the token of a number. -/
def openBlock (l : Lexer) (column : Nat) (number : Option Nat) (token : Token) (mark : Mark) :
    Except Fault Lexer :=
  if l.inFlow || (column : Int) ≤ l.indent then .ok l
  else if deepest ≤ l.outer.length then .error l.here.fault
  else
    let l := { l with indent := column, outer := l.indent :: l.outer }
    .ok (match number with
      | some n => l.insert n token mark
      | none => l.push token mark mark)

/-- Ends the blocks that lie further to the right than a column. -/
def closeBlocks (l : Lexer) (column : Int) (mark : Mark) : Lexer :=
  if l.inFlow then l
  else
    let (indent, outer, closed) := go l.indent l.outer
    { l with
      indent, outer
      queue := l.queue ++ List.replicate closed ⟨.blockEnd, mark, mark⟩ }
where
  /-- The columns that are left, and how many blocks end. -/
  go : Int → List Int → Int × List Int × Nat
    | indent, [] => (indent, [], 0)
    | indent, next :: rest =>
      if indent ≤ column then (indent, next :: rest, 0)
      else
        let (indent, outer, closed) := go next rest
        (indent, outer, closed + 1)

/-- Ends all blocks, as the stream or a document does. -/
def closeAll (l : Lexer) : Except Fault Lexer := do
  let l ← (l.closeBlocks (-1) l.here.mark).dropKey
  return { l with keyAllowed := false }

/-! ## Tokens -/

/-- Passes over blanks, comments and line breaks. A tab may not stand where a key may begin. -/
def skipGap (l : Lexer) : Lexer := go (' ' :: l.here.rest) l
where
  /-- The characters bound the number of lines. -/
  go : List Char → Lexer → Lexer
    | [], l => l
    | _ :: fuel, l =>
      let tabs := l.inFlow || !l.keyAllowed
      let c := l.here.skipWhile fun ch => ch = ' ' || (tabs && ch = '\t')
      let c := if c.isAt '#' then c.skipComments else c
      if c.atBreak then go fuel { l with here := c.skipLine, keyAllowed := l.keyAllowed || !l.inFlow }
      else { l with here := c }

/-- Opens a bracket. -/
def openBracket (l : Lexer) (token : Token) : Except Fault Lexer := do
  let l ← l.markKey
  if deepest ≤ l.flow then throw l.here.fault
  else
    return { l.emitMark token 1 with pending := none :: l.pending, flow := l.flow + 1, keyAllowed := true }

/-- Closes a bracket. -/
def closeBracket (l : Lexer) (token : Token) : Except Fault Lexer := do
  let l ← l.dropKey
  let pending := if l.inFlow then l.pending.drop 1 else l.pending
  return { l.emitMark token 1 with pending, flow := l.flow - 1, keyAllowed := false }

/-- Reads a comma. -/
def readComma (l : Lexer) : Except Fault Lexer := do
  let l ← l.dropKey
  return { l.emitMark .comma 1 with keyAllowed := true }

/-- Reads a dash. In brackets it is left to be refused later. -/
def readDash (l : Lexer) : Except Fault Lexer := do
  let l ←
    if l.inFlow then pure l
    else if !l.keyAllowed then throw l.here.fault
    else l.openBlock l.here.mark.column none .blockList l.here.mark
  let l ← l.dropKey
  return { l.emitMark .dash 1 with keyAllowed := true }

/-- Reads the mark of a key. -/
def readKeyMark (l : Lexer) : Except Fault Lexer := do
  let l ←
    if l.inFlow then pure l
    else if !l.keyAllowed then throw l.here.fault
    else l.openBlock l.here.mark.column none .blockMapping l.here.mark
  let l ← l.dropKey
  return { l.emitMark .key 1 with keyAllowed := !l.inFlow }

/-- Puts the token of a key before what turned out to begin it. -/
def confirmKey (l : Lexer) (k : PendingKey) : Except Fault Lexer := do
  let l := l.insert k.number .key k.mark
  let l ← l.openBlock k.mark.column (some k.number) .blockMapping k.mark
  return { l with pending := none :: l.pending.drop 1, keyAllowed := false }

/-- Reads the mark of a value, behind a key that has a mark. -/
def plainValue (l : Lexer) : Except Fault Lexer := do
  let l ←
    if l.inFlow then pure l
    else if !l.keyAllowed then throw l.here.fault
    else l.openBlock l.here.mark.column none .blockMapping l.here.mark
  return { l with keyAllowed := !l.inFlow }

/-- Reads the mark of a value. -/
def readValueMark (l : Lexer) : Except Fault Lexer := do
  let l ← match l.pending with
    | some k :: rest =>
      if ← l.stillKey k then l.confirmKey k else ({ l with pending := none :: rest } : Lexer).plainValue
    | _ => l.plainValue
  return l.emitMark .value 1

/-- Reads a token that could begin a key. -/
def readKeyLike (l : Lexer) (read : Cursor → Except Fault (Token × Cursor)) : Except Fault Lexer := do
  let l ← l.markKey
  let (token, after) ← read l.here
  return { l.emit token after with keyAllowed := false }

/-- Reads a scalar in quotes. -/
def readQuotes (single : Bool) (c : Cursor) : Except Fault (Token × Cursor) := do
  let (text, after) ← readQuoted single c.skip
  return (.scalar false (String.ofList text), after)

/-- Reads a block scalar. -/
def readBlockScalar (l : Lexer) (literal : Bool) : Except Fault Lexer := do
  let l ← l.dropKey
  let (text, after) ← readBlock literal l.indent l.here.skip
  return { l.emit (.scalar false (String.ofList text)) after with keyAllowed := true }

/-- Reads a plain scalar. One that ends behind a line break lets a key begin there. -/
def readPlainScalar (l : Lexer) : Except Fault Lexer := do
  let l ← l.markKey
  let (text, broken, after) ← readPlain l.inFlow (l.indent + 1).toNat l.here
  return { l.emit (.scalar true (String.ofList text)) after with keyAllowed := broken }

/-- Characters that no plain scalar begins with, except for the first three before a word. -/
def marks : List Char :=
  ['-', '?', ':', ',', '[', ']', '\x7b', '\x7d', '#', '&', '*', '!', '|', '>', '\'', '"', '%', '@',
    Char.ofNat 0x60]

/-- Whether a plain scalar may begin with a character before a text. -/
def beginsPlain (inFlow : Bool) (c : Char) (rest : List Char) : Bool :=
  !(isBlank c || isBreak c || marks.contains c) || (c = '-' && !(rest.head?.any isBlank)) ||
    (!inFlow && (c = '?' || c = ':') && !endsWord rest)

/-- Reads the token that begins with a character before a text. -/
def readToken (l : Lexer) (c : Char) (rest : List Char) : Except Fault Lexer :=
  if c = '[' then l.openBracket .openList
  else if c = '\x7b' then l.openBracket .openMapping
  else if c = ']' then l.closeBracket .closeList
  else if c = '\x7d' then l.closeBracket .closeMapping
  else if c = ',' then l.readComma
  else if c = '-' && endsWord rest then l.readDash
  else if c = '?' && (l.inFlow || endsWord rest) then l.readKeyMark
  else if c = ':' && (l.inFlow || endsWord rest) then l.readValueMark
  else if c = '*' then l.readKeyLike fun c => (readName c).map fun (name, c) => (.alias name, c)
  else if c = '&' then l.readKeyLike fun c => (readName c).map fun (name, c) => (.anchor name, c)
  else if c = '!' then l.readKeyLike readTag
  else if c = '|' && !l.inFlow then l.readBlockScalar true
  else if c = '>' && !l.inFlow then l.readBlockScalar false
  else if c = '\'' then l.readKeyLike (readQuotes true)
  else if c = '"' then l.readKeyLike (readQuotes false)
  else if beginsPlain l.inFlow c rest then l.readPlainScalar
  else .error l.here.fault

/-- Ends the stream: the text counts as if a line break ended it. -/
def readEnd (l : Lexer) : Except Fault Lexer := do
  let mark := l.here.mark
  let mark := if mark.column = 0 then mark else { mark with line := mark.line + 1, column := 0 }
  let l ← ({ l with here := { l.here with mark } } : Lexer).closeAll
  return l.emit .streamEnd l.here

/-- Passes over a comment behind a token, unless that is a dash. -/
def skipLineComment (l : Lexer) : Lexer :=
  if (l.queue.getLast?.map (·.token)) = some .dash then l
  else { l with here := l.here.skipLineComment }

/-- Reads the next token into the queue, with those that come before it. -/
def fetch (l : Lexer) : Except Fault Lexer :=
  if !l.started then .ok { l.emit .streamStart l.here with started := true }
  else
    let before := l.here.mark
    let l := l.skipGap
    let l := l.closeBlocks l.here.mark.column before
    match l.here.rest with
    | [] => l.readEnd
    | c :: rest =>
      if c = '%' && l.here.mark.column = 0 then do
        let l ← l.closeAll
        let (token, after) ← readDirective l.here
        return l.emit token after
      else if l.here.atRule '-' then return (← l.closeAll).emitMark .documentStart 3
      else if l.here.atRule '.' then return (← l.closeAll).emitMark .documentEnd 3
      else return (← l.readToken c rest).skipLineComment

/-- Number of tokens that wait in the queue before the first of them is taken. -/
def lookahead : Nat := 3

/-- The token of a number among those that could begin a key; their numbers fall from the innermost level
to the outermost. -/
def pendingAt? (number : Nat) : List (Option PendingKey) → Option PendingKey
  | [] => none
  | none :: rest => pendingAt? number rest
  | some k :: rest =>
    if k.number = number then some k else if k.number < number then none else pendingAt? number rest

/-- Whether the first token in the queue could still turn out to begin a key. -/
def headPending (l : Lexer) : Except Fault Bool :=
  match pendingAt? l.taken l.pending with
  | some k => l.stillKey k
  | none => .ok false

/-- Reads tokens until the next one is certain. -/
def fill (l : Lexer) : Except Fault Lexer := go (' ' :: ' ' :: ' ' :: ' ' :: l.here.rest) l
where
  /-- The characters bound the number of tokens, up to those that end the stream. -/
  go : List Char → Lexer → Except Fault Lexer
    | [], l => .ok l
    | _ :: fuel, l => do
      if l.queue.length < lookahead || (← l.headPending) then go fuel (← l.fetch) else return l

/-- Looks at the next token. -/
def peek (l : Lexer) : Except Fault (Lexeme × Lexer) := do
  let l ← l.fill
  match l.queue with
  | x :: _ => return (x, l)
  | [] => throw l.here.fault

/-- Takes the next token. -/
def take (l : Lexer) : Lexer := { l with queue := l.queue.drop 1, taken := l.taken + 1 }

end Lexer
end FlowTyping.Yaml
