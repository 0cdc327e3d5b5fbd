import FlowTyping.Yaml.Scalar

/-!
# Tokens of YAML documents

The marks, names and scalars that a document is made of. Some tokens stand for no character: those that
begin and end the stream, those that begin and end a block by its indentation, and the one before a key that
only the colon behind it shows to be a key.

The readers here read the tokens that have a text of their own: directives, names and tags. Those of
scalars stand in their own module.
-/

namespace FlowTyping.Yaml

/-- A token. -/
inductive Token where
  | streamStart
  | streamEnd
  /-- The version that a document is written in. -/
  | version (major minor : Nat)
  /-- A handle for tags, with the text that it stands for. -/
  | handle (name start : String)
  | documentStart
  | documentEnd
  | blockList
  | blockMapping
  | blockEnd
  | openList
  | closeList
  | openMapping
  | closeMapping
  | dash
  | comma
  | key
  | value
  | alias (name : String)
  | anchor (name : String)
  | tag (handle rest : String)
  | scalar (plain : Bool) (text : String)
  deriving DecidableEq, Repr, Inhabited

/-- A token with the places at which it begins and ends. -/
structure Lexeme where
  token : Token
  start : Mark
  stop : Mark
  deriving Repr, Inhabited

/-! ## Names and tags -/

/-- Reads the name of an anchor or alias, from its mark on. -/
def readName (c : Cursor) : Except Fault (String × Cursor) :=
  let (name, after) := c.skip.readWhile isNamePart
  let ends : Bool :=
    endsWord after.rest ||
      after.rest.head?.any fun ch => ['?', ':', ',', ']', '\x7d', '%', '@'].contains ch || ch.toNat = 0x60
  if name.isEmpty || !ends then .error after.fault else .ok (String.ofList name, after)

/-- Reads a handle: an exclamation mark, a name, and perhaps another mark. -/
def readHandle (c : Cursor) : Except Fault (List Char × Cursor) :=
  if !c.isAt '!' then .error c.fault
  else
    let (name, after) := c.skip.readWhile isNamePart
    if after.isAt '!' then .ok ('!' :: name ++ ['!'], after.skip) else .ok ('!' :: name, after)

/-- Whether a character may stand in a tag. -/
def isTagPart (c : Char) : Bool :=
  isNamePart c ||
    [';', '/', '?', ':', '@', '&', '=', '+', '$', ',', '.', '!', '~', '*', '\'', '(', ')', '[', ']',
      '%'].contains c

/-- Number of bytes of the character that a first byte announces; `0` for one that announces none. -/
def leadWidth (b : Nat) : Nat :=
  if b < 0x80 then 1 else if b < 0xc0 then 0 else if b < 0xe0 then 2 else if b < 0xf0 then 3
  else if b < 0xf8 then 4 else 0

/-- Reads an octet that is written as a percent sign and two digits. -/
def readOctet (c : Cursor) : Except Fault (Nat × Cursor) :=
  match c.rest with
  | '%' :: a :: b :: _ =>
    match hexNumber? [a, b] with
    | some n => .ok (n, c.skipMany 3)
    | none => .error c.fault
  | _ => .error c.fault

/-- Reads so many octets that go on with a character. -/
def readOctets : Nat → Cursor → Except Fault (Text.Bytes × Cursor)
  | 0, c => .ok ([], c)
  | n + 1, c => do
    let (b, after) ← readOctet c
    if b / 64 ≠ 2 then throw c.fault
    else
      let (bytes, after) ← readOctets n after
      return (UInt8.ofNat b :: bytes, after)

/-- Reads the rest of a tag, with its escaped octets. -/
def readTagRest (c : Cursor) : Except Fault (Text.Bytes × Cursor) := go c.rest [] c
where
  /-- The characters bound the number of steps. -/
  go : List Char → Text.Bytes → Cursor → Except Fault (Text.Bytes × Cursor)
    | [], text, c => .ok (text, c)
    | _ :: fuel, text, c =>
      match c.rest with
      | [] => .ok (text, c)
      | ch :: _ =>
        if ch = '%' then do
          let (b, after) ← readOctet c
          if leadWidth b = 0 then throw c.fault
          else
            let (bytes, after) ← readOctets (leadWidth b - 1) after
            go fuel (text ++ UInt8.ofNat b :: bytes) after
        else if isTagPart ch then go fuel (text ++ (Text.Sym.char ch).encode) c.skip
        else .ok (text, c)

/-- Reads the rest of a tag behind what was taken for its handle; one of the two must not be empty. -/
def readTagText (head : List Char) (c : Cursor) : Except Fault (String × Cursor) := do
  let (bytes, after) ← readTagRest c
  if head.isEmpty && after.mark.index = c.mark.index then throw c.fault
  else return (String.ofList (head.drop 1) ++ Text.shown bytes, after)

/-- Reads a tag: in angle brackets, with a handle, or with the mark alone. -/
def readTag (c : Cursor) : Except Fault (Token × Cursor) := do
  let (token, after) ←
    if (c.rest.drop 1).head? = some '<' then do
      let (text, after) ← readTagText [] (c.skipMany 2)
      if after.isAt '>' then pure (Token.tag "" text, after.skip) else throw after.fault
    else do
      let (handle, after) ← readHandle c
      if 1 < handle.length && handle.getLast? = some '!' then
        let (text, after) ← readTagText [] after
        pure (Token.tag (String.ofList handle) text, after)
      else
        let (text, after) ← readTagText handle after
        pure (if text.isEmpty then Token.tag "" "!" else Token.tag "!" text, after)
  if endsWord after.rest then return (token, after) else throw after.fault

/-! ## Directives -/

/-- Reads a number of one digit or two. -/
def readVersionPart (c : Cursor) : Except Fault (Nat × Cursor) :=
  let (digits, after) := c.readWhile Char.isDigit
  match digits with
  | [a] => .ok (a.toNat - 48, after)
  | [a, b] => .ok ((a.toNat - 48) * 10 + (b.toNat - 48), after)
  | _ => .error c.fault

/-- Reads the version that a directive gives. -/
def readVersion (c : Cursor) : Except Fault (Token × Cursor) := do
  let (major, c) ← readVersionPart (c.skipWhile isBlank)
  if !c.isAt '.' then throw c.fault
  else
    let (minor, c) ← readVersionPart c.skip
    return (.version major minor, c)

/-- Reads the handle that a directive declares and what it stands for. -/
def readHandleDirective (c : Cursor) : Except Fault (Token × Cursor) := do
  let (handle, c) ← readHandle (c.skipWhile isBlank)
  if handle.getLast? ≠ some '!' || !(c.rest.head?.any isBlank) then throw c.fault
  else
    let (start, after) ← readTagText [] (c.skipWhile isBlank)
    if endsWord after.rest then return (.handle (String.ofList handle) start, after)
    else throw after.fault

/-- Reads a directive with its line, from the percent sign on. -/
def readDirective (c : Cursor) : Except Fault (Token × Cursor) := do
  let (name, c) := c.skip.readWhile isNamePart
  if !endsWord c.rest then throw c.fault
  else
    let (token, c) ← match String.ofList name with
      | "YAML" => readVersion c
      | "TAG" => readHandleDirective c
      | _ => throw c.fault
    let c := c.skipWhile isBlank
    let c := if c.isAt '#' then c.skipToBreak else c
    if endsLine c.rest then return (token, c.skipLine) else throw c.fault

end FlowTyping.Yaml
