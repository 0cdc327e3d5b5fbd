import FlowTyping.Text.Quoted

/-!
# JSON values

The documents that reports are handed to other tools in, and their indented text. Fields keep the
order in which they are given. Documents hold whole numbers only; others come in requests.

Besides quotes, backslashes and controls, the writer escapes `<`, `>`, `&` and the two Unicode line
separators, so that a document may be put into a web page as it is.
-/

namespace FlowTyping

/-- A JSON value. -/
inductive JsonValue where
  | null
  | bool (value : Bool)
  | int (value : Int)
  /-- A number that is not whole, as it is written. -/
  | real (digits : String)
  | text (value : Text)
  | list (items : List JsonValue)
  | object (fields : List (String × JsonValue))
  deriving Repr, Inhabited

namespace JsonValue

/-- Controls that have an escape of one letter. -/
def shortEscapes : List (Char × Char) :=
  [('\n', 'n'), ('\r', 'r'), ('\t', 't'), ('\x08', 'b'), ('\x0c', 'f'), ('"', '"'), ('\\', '\\')]

/-- Whether a character is written by its number. -/
def isNumbered (c : Char) : Bool :=
  c.toNat < 0x20 || c = '<' || c = '>' || c = '&' || c.toNat = 0x2028 || c.toNat = 0x2029

/-- A character by its number. -/
def numbered (n : Nat) : List Char := '\\' :: 'u' :: Text.hexDigits 4 n

/-- How a symbol is written in a string. A stray byte is written as the replacement character. -/
def escapeSym : Text.Sym → List Char
  | .stray _ => numbered 0xfffd
  | .char c =>
    match shortEscapes.lookup c with
    | some letter => ['\\', letter]
    | none => if isNumbered c then numbered c.toNat else [c]

/-- A text as a JSON string. -/
def quote (t : Text) : String :=
  String.ofList ('"' :: (Text.decode t.toList).flatMap escapeSym ++ ['"'])

/-- The start of a line at a depth. -/
def indent (depth : Nat) : String := String.ofList (List.replicate (2 * depth) ' ')

/-- Puts items on lines of their own between brackets. -/
def block (left right : String) (depth : Nat) (items : List String) : String :=
  if items.isEmpty then left ++ right
  else
    left ++ "\n" ++ ",\n".intercalate (items.map (indent (depth + 1) ++ ·)) ++ "\n" ++ indent depth ++
      right

mutual
/-- The indented text of a value at a depth. -/
def renderAt (depth : Nat) : JsonValue → String
  | .null => "null"
  | .bool value => if value then "true" else "false"
  | .int value => toString value
  | .real digits => digits
  | .text value => quote value
  | .list items => block "[" "]" depth (renderItems (depth + 1) items)
  | .object fields => block "\x7b" "\x7d" depth (renderFields (depth + 1) fields)

def renderItems (depth : Nat) : List JsonValue → List String
  | [] => []
  | v :: vs => renderAt depth v :: renderItems depth vs

def renderFields (depth : Nat) : List (String × JsonValue) → List String
  | [] => []
  | (name, v) :: rest => (quote name ++ ": " ++ renderAt depth v) :: renderFields depth rest
end

/-- The indented text of a value. -/
def render (v : JsonValue) : String := renderAt 0 v

end JsonValue
end FlowTyping
