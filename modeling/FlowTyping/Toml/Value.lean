/-!
# TOML values

What a document says, in two stages: an `Expr` is a value as it is written, with the keys of inline
tables still dotted; a `Value` stands in the tree of tables that the document describes.

* `Line` is one definition of a document: a header or a key with its value.
* `renderKey` prints a key, with quotes around the parts that need them.
-/

namespace FlowTyping.Toml

/-- A key, by its parts. -/
abbrev Key := List String

/-- A value without parts. Of floating-point numbers and dates only the kind is kept. -/
inductive Scalar where
  | int (value : Int)
  | float
  | date
  | bool (value : Bool)
  | text (value : String)
  deriving DecidableEq, Repr

/-- A value as it is written. -/
inductive Expr where
  | scalar (value : Scalar)
  | list (items : List Expr)
  | table (entries : List (Key × Expr))
  deriving Repr, Inhabited

/-- Whether a value is written in square brackets. -/
def Expr.isList : Expr → Bool
  | .list _ => true
  | _ => false

/-- What a line defines. -/
inductive Line where
  /-- The table that the lines below it are in. -/
  | header (key : Key)
  /-- One more table in an array of tables. -/
  | arrayHeader (key : Key)
  | pair (key : Key) (value : Expr)
  deriving Repr

/-- A value in the tree of a document. -/
inductive Value where
  | scalar (value : Scalar)
  | list (items : List Value)
  | table (entries : List (String × Value))
  /-- An array of tables; the last one is open for further keys. -/
  | tables (items : List (List (String × Value)))
  deriving Repr, Inhabited

/-- The entries of a table, in the order in which they were first written. -/
abbrev Table := List (String × Value)

/-- The table with a value under a name, in the place of an earlier one if there is any. -/
def Table.put (name : String) (v : Value) (t : Table) : Table :=
  if t.any (·.1 = name) then t.map fun e => if e.1 = name then (name, v) else e
  else t ++ [(name, v)]

/-- Whether a character of a key needs no quotes. -/
def isBareChar (c : Char) : Bool := c.isAlphanum || c = '_' || c = '-'

/-- How a character stands between the quotes of a key. -/
def escapeKeyChar (c : Char) : List Char :=
  if c = '"' || c = '\\' then ['\\', c]
  else if c = '\x08' then ['\\', 'b']
  else if c = '\t' then ['\\', 't']
  else if c = '\n' then ['\\', 'n']
  else if c = '\x0c' then ['\\', 'f']
  else if c = '\r' then ['\\', 'r']
  else if c.toNat < 0x20 || c.toNat = 0x7f then
    '\\' :: 'u' :: '0' :: '0' ::
      [Nat.digitChar (c.toNat / 16), Nat.digitChar (c.toNat % 16)]
  else [c]

/-- A part of a key in print. -/
def renderPart (part : String) : String :=
  if !part.isEmpty && part.toList.all isBareChar then part
  else String.ofList ('"' :: part.toList.flatMap escapeKeyChar ++ ['"'])

/-- A key in print. -/
def renderKey (key : Key) : String := ".".intercalate (key.map renderPart)

end FlowTyping.Toml
