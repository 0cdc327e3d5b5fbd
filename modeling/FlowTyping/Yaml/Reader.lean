import FlowTyping.Yaml.Lexer
import FlowTyping.Yaml.Node

/-!
# Documents from tokens

A stream may hold several documents; only the first is read, and no further than to the tokens behind it. The
collections that are open are kept in a list, so that no depth of nesting is too much.

* `Frame.next` says what an open collection wants next.
* `readNode` reads a node with all that it holds.
* `read` reads the first document of a text.
-/

namespace FlowTyping.Yaml

/-- How a list is written. -/
inductive ListStyle where
  | block
  /-- With its dashes at the column of the key before it. -/
  | level
  | flow
  deriving DecidableEq, Repr

/-- How a mapping is written. -/
inductive MappingStyle where
  | block
  | flow
  /-- A single entry that is an item of a list in brackets. -/
  | pair
  deriving DecidableEq, Repr

/-- A collection that is open. What it holds so far is kept with the last item first. -/
inductive Frame where
  | list (style : ListStyle) (line : Nat) (anchor : Option Nat) (items : List Node)
  /-- A mapping with the key whose value is read next; `bare` if that key has no value. -/
  | mapping (style : MappingStyle) (line : Nat) (anchor : Option Nat) (entries : List (Node × Node))
      (key : Option Node) (bare : Bool)

/-- A reader of documents. -/
structure Reader where
  lexer : Lexer
  /-- The handles of tags and what they stand for. -/
  handles : List (String × String) := []
  /-- The names of nodes with their numbers, the last one first. -/
  names : List (String × Nat) := []
  /-- The nodes that have names, by their numbers. -/
  anchored : Array Node := #[]
  /-- Number of aliases read. -/
  aliases : Nat := 0

/-- Reading of a document. -/
abbrev Reading := StateT Reader (Except Fault)

namespace Reading

/-- Looks at the next token. -/
def peek : Reading Lexeme := do
  let r ← get
  let (x, lexer) ← r.lexer.peek
  set { r with lexer }
  return x

/-- Takes the next token. -/
def take : Reading Unit := modify fun r => { r with lexer := r.lexer.take }

/-- Takes the next token and looks at the one behind it. -/
def takePeek : Reading Lexeme := do
  take
  peek

/-- Ends with a fault. -/
def fail {α : Type} : Reading α := do throw (← get).lexer.here.fault

/-- Gives a name to a node that is about to be read. -/
def nameNode (name : String) : Reading Nat :=
  modifyGet fun r =>
    let number := r.anchored.size
    (number, { r with names := (name, number) :: r.names, anchored := r.anchored.push (.empty 0) })

/-- Keeps a node that has a name. -/
def keep (anchor : Option Nat) (n : Node) : Reading Node := do
  match anchor with
  | some number => modify fun r => { r with anchored := r.anchored.setIfInBounds number n }
  | none => pure ()
  return n

end Reading

open Reading

/-! ## Properties of nodes -/

/-- A place behind a line that counts from zero. -/
def Mark.number (m : Mark) : Nat := m.line + 1

/-- The tags that the format itself knows have a long form. -/
def standardTags : String := "tag:yaml.org,2002:"

/-- The short form of a tag; the mark alone is no tag. -/
def shortTag (tag : String) : String :=
  if tag = "!" then ""
  else
    match standardTags.toList.isPrefixOf tag.toList with
    | true => "!!" ++ String.ofList (tag.toList.drop standardTags.length)
    | false => tag

/-- The tag that a handle and a text stand for. -/
def tagOf (handle rest : String) : Reading String := do
  if handle.isEmpty then return rest
  else
    match (← get).handles.lookup handle with
    | some start => if (start ++ rest).isEmpty then fail else return start ++ rest
    | none => fail

/-- What stands before a node: its name and its tag. -/
structure Props where
  anchor : Option String := none
  tag : Option String := none

/-- Reads a name and a tag in either order, and looks at the token behind them. -/
def readProps : Reading (Props × Lexeme) := do
  let x ← peek
  match x.token with
  | .anchor name =>
    let x ← takePeek
    match x.token with
    | .tag handle rest =>
      let x ← takePeek
      return ({ anchor := some name, tag := some (← tagOf handle rest) }, x)
    | _ => return ({ anchor := some name }, x)
  | .tag handle rest =>
    let x ← takePeek
    match x.token with
    | .anchor name =>
      let x ← takePeek
      return ({ anchor := some name, tag := some (← tagOf handle rest) }, x)
    | _ => return ({ tag := some (← tagOf handle rest) }, x)
  | _ => return ({}, x)

/-! ## Collections -/

/-- Begins a node: a scalar or an alias is read at once, and a collection is opened. A block may begin only
outside of brackets, and a list at the column of its key only as a value or key. -/
def beginNode (block level : Bool) : Reading (Node ⊕ Frame) := do
  let first ← peek
  match first.token with
  | .alias name =>
    take
    let r ← get
    match r.names.lookup name with
    | some anchor =>
      set { r with aliases := r.aliases + 1 }
      return .inl (.alias first.start.number name anchor r.aliases)
    | none => fail
  | _ =>
    let (props, x) ← readProps
    let line := first.start.number
    let anchor ← props.anchor.mapM nameNode
    let scalar (plain : Bool) (text : String) : Reading (Node ⊕ Frame) := do
      return .inl (← keep anchor (.scalar { line, plain, tag := (props.tag.map shortTag).getD "", text }))
    match x.token with
    | .scalar plain text =>
      take
      scalar plain text
    | .openList =>
      take
      return .inr (.list .flow line anchor [])
    | .openMapping =>
      take
      return .inr (.mapping .flow line anchor [] none false)
    | .dash =>
      if level then return .inr (.list .level line anchor [])
      else if props.anchor.isSome || props.tag.isSome then scalar true ""
      else fail
    | .blockList =>
      if block then
        take
        return .inr (.list .block line anchor [])
      else if props.anchor.isSome || props.tag.isSome then scalar true ""
      else fail
    | .blockMapping =>
      if block then
        take
        return .inr (.mapping .block line anchor [] none false)
      else if props.anchor.isSome || props.tag.isSome then scalar true ""
      else fail
    | _ => if props.anchor.isSome || props.tag.isSome then scalar true "" else fail

/-- What an open collection wants next. -/
inductive Want where
  /-- A node. -/
  | node (block level : Bool)
  /-- The empty node at a line. -/
  | empty (line : Nat)
  /-- A collection inside of it. -/
  | inner (f : Frame)
  /-- Nothing more. -/
  | done

namespace Frame

/-- Looks for an item of a list in a block. -/
def nextItem (ends : List Token) : Reading Want := do
  let dash ← peek
  let x ← takePeek
  return if ends.contains x.token then .empty dash.stop.number else .node true false

/-- Looks for a comma, unless the collection has nothing in it yet. -/
def separator (first : Bool) (close : Token) : Reading Lexeme := do
  let x ← peek
  if first || x.token = close then return x
  else if x.token = .comma then takePeek
  else fail

/-- Looks for a value behind its mark; without the mark it is empty. -/
def nextValue (block : Bool) (ends : List Token) : Reading Want := do
  let mark ← peek
  if mark.token = .value then
    let x ← takePeek
    return if ends.contains x.token then .empty mark.stop.number else .node block block
  else return .empty mark.start.number

/-- What ends a key or a value in a block. -/
def blockEnds : List Token := [.key, .value, .blockEnd]

/-- What an open collection wants next; the second part says whether the key that is read now has no
value. -/
def next : Frame → Reading (Want × Bool)
  | .list .block _ _ _ => do
    let x ← peek
    match x.token with
    | .dash => return (← nextItem [.dash, .blockEnd], false)
    | .blockEnd =>
      take
      return (.done, false)
    | _ => fail
  | .list .level _ _ _ => do
    let x ← peek
    match x.token with
    | .dash => return (← nextItem (.dash :: blockEnds), false)
    | _ => return (.done, false)
  | .list .flow _ _ items => do
    let x ← separator items.isEmpty .closeList
    match x.token with
    | .closeList =>
      take
      return (.done, false)
    | .key =>
      take
      return (.inner (.mapping .pair x.start.number none [] none false), false)
    | _ => return (.node false false, false)
  | .mapping .pair _ _ [] none _ => do
    let x ← peek
    if [Token.value, .comma, .closeList].contains x.token then
      take
      return (.empty x.stop.number, false)
    else return (.node false false, false)
  | .mapping .pair _ _ [] (some _) _ => do
    return (← nextValue false [.comma, .closeList], false)
  | .mapping .pair _ _ (_ :: _) _ _ => return (.done, false)
  | .mapping .block _ _ _ none _ => do
    let x ← peek
    match x.token with
    | .key =>
      let y ← takePeek
      return (if blockEnds.contains y.token then .empty x.stop.number else .node true true, false)
    | .blockEnd =>
      take
      return (.done, false)
    | _ => fail
  | .mapping .block _ _ _ (some _) _ => do return (← nextValue true blockEnds, false)
  | .mapping .flow _ _ entries none _ => do
    let x ← separator entries.isEmpty .closeMapping
    match x.token with
    | .closeMapping =>
      take
      return (.done, false)
    | .key =>
      let y ← takePeek
      let ends := [Token.value, .comma, .closeMapping].contains y.token
      return (if ends then .empty y.start.number else .node false false, false)
    | _ => return (.node false false, true)
  | .mapping .flow _ _ _ (some _) bare => do
    let x ← peek
    if bare then return (.empty x.start.number, false)
    else if x.token = .value then
      let y ← takePeek
      let ends := [Token.comma, .closeMapping].contains y.token
      return (if ends then .empty y.start.number else .node false false, false)
    else return (.empty x.start.number, false)

/-- The collection with one node more. -/
def add (n : Node) : Frame → Frame
  | .list style line anchor items => .list style line anchor (n :: items)
  | .mapping style line anchor entries none bare => .mapping style line anchor entries (some n) bare
  | .mapping style line anchor entries (some key) _ =>
    .mapping style line anchor ((key, n) :: entries) none false

/-- The collection with a note on whether the key that is read now has no value. -/
def markBare (bare : Bool) : Frame → Frame
  | .mapping style line anchor entries none _ => .mapping style line anchor entries none bare
  | f => f

/-- The node that a collection makes. -/
def close : Frame → Reading Node
  | .list _ line anchor items => keep anchor (.list line items.reverse)
  | .mapping _ line anchor entries _ _ => keep anchor (.mapping line entries.reverse)

end Frame

/-- What is to be done next: go on with the innermost collection, begin a node, or add one. -/
inductive Todo where
  | resume
  | start (block level : Bool)
  | add (n : Node)

/-- Reads a node inside of open collections; `fuel` bounds the number of steps. -/
def readNodeIn : (fuel : Nat) → List Frame → Todo → Reading Node
  | 0, _, _ => fail
  | n + 1, open_, .start block level => do
    match ← beginNode block level with
    | .inl node => readNodeIn n open_ (.add node)
    | .inr f => readNodeIn n (f :: open_) .resume
  | _ + 1, [], .add node => return node
  | n + 1, f :: open_, .add node => readNodeIn n (f.add node :: open_) .resume
  | _ + 1, [], .resume => fail
  | n + 1, f :: open_, .resume => do
    let (want, bare) ← f.next
    let f := f.markBare bare
    match want with
    | .node block level => readNodeIn n (f :: open_) (.start block level)
    | .empty line => readNodeIn n (f :: open_) (.add (.empty line))
    | .inner g => readNodeIn n (g :: f :: open_) .resume
    | .done =>
      let node ← f.close
      readNodeIn n open_ (.add node)

/-- Reads a node. A token has a character or is one of few that come with another, and each is looked at
a few times, so the characters bound the steps. -/
def readNode (size : Nat) : Reading Node := readNodeIn (16 * (size + 4)) [] (.start true false)

/-! ## Documents -/

/-- The handles that every document knows. -/
def standardHandles : List (String × String) := [("!", "!"), ("!!", standardTags)]

/-- Reads the directives before a document; `fuel` bounds their number. -/
def readDirectives : (fuel : Nat) → (versioned : Bool) → List (String × String) →
    Reading (List (String × String))
  | 0, _, handles => return handles
  | n + 1, versioned, handles => do
    let x ← peek
    match x.token with
    | .version major minor =>
      if versioned || major ≠ 1 || minor ≠ 1 then fail
      else
        take
        readDirectives n true handles
    | .handle name start =>
      if (handles.lookup name).isSome then fail
      else
        take
        readDirectives n versioned (handles ++ [(name, start)])
    | _ => return handles

/-- Reads the root of a document behind the mark of its start; it may be empty. -/
def readContent (size : Nat) : Reading Node := do
  let x ← peek
  match x.token with
  | .version _ _ | .handle _ _ | .documentStart | .documentEnd | .streamEnd => return .empty x.start.number
  | _ => readNode size

/-- Reads the first document of a stream, if there is one, and looks at the token behind it. -/
def readDocument (size : Nat) : Reading (Option Document) := do
  let _ ← peek
  let first ← takePeek
  match first.token with
  | .streamEnd => return none
  | .version _ _ | .handle _ _ | .documentStart =>
    let handles ← readDirectives (size + 1) false []
    modify fun r => { r with handles := handles ++ standardHandles }
    let x ← peek
    if x.token ≠ .documentStart then fail
    else
      take
      finish size (← readContent size)
  | _ =>
    modify fun r => { r with handles := standardHandles }
    finish size (← readNode size)
where
  /-- Looks at the token behind the document. -/
  finish (size : Nat) (root : Node) : Reading (Option Document) := do
    let _ ← peek
    return some { root, anchored := (← get).anchored, size }

/-! ## Texts -/

/-- Number of bytes that are read at a time. -/
def blockSize : Nat := 512

/-- Number of bytes of characters. -/
def byteSize (cs : List Char) : Nat := cs.foldl (fun n c => n + c.utf8Size) 0

/-- Whether all characters are allowed in the blocks up to the one that holds a place. -/
def allowedUpTo (index : Nat) (cs : List Char) : Bool :=
  let limit := (byteSize (cs.take (index + 4)) + blockSize - 1) / blockSize * blockSize
  go limit 0 cs
where
  go (limit : Nat) : Nat → List Char → Bool
    | _, [] => true
    | offset, c :: cs => limit ≤ offset || (isAllowed c && go limit (offset + c.utf8Size) cs)

/-- A text without the byte order mark at its start. -/
def dropMark : List Char → List Char
  | '\ufeff' :: cs => cs
  | cs => cs

/-- Reads the first document of a text; `none` if there is nothing in it. A character that no document may
have is a fault wherever the text is read. -/
def read (text : String) : Except Fault (Option Document) := do
  let cs := dropMark text.toList
  let (document, r) ← (readDocument cs.length).run { lexer := { here := { rest := cs } } }
  if allowedUpTo r.lexer.here.mark.index cs then return document else throw r.lexer.here.fault

end FlowTyping.Yaml
