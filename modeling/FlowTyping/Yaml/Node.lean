import FlowTyping.Number.Decimal
import FlowTyping.Text.Base64
import FlowTyping.Text.Basic
import FlowTyping.Text.Calendar
import FlowTyping.Text.Integer

/-!
# YAML documents

A document is a tree of scalars, lists and mappings. Every node knows its line: that of its first
character, or for an empty value that of the mark before it. Mappings keep their entries in order,
repeated keys included. A node may be given a name, and an alias stands for the node that had its name
last; such nodes are kept beside the tree, so that one may hold an alias of itself.

* `Scalar.kind` is what a plain scalar looks like.
* `Scalar.meaning` is what a scalar stands for where a text is wanted: its tag must not contradict it.
-/

namespace FlowTyping.Yaml

/-- A scalar as it is written. -/
structure Scalar where
  line : Nat
  /-- Whether it stands without quotes and in no block. -/
  plain : Bool
  /-- Its tag in short form; empty if it has none. -/
  tag : String := ""
  text : String
  deriving DecidableEq, Repr, Inhabited

/-- What a plain scalar looks like. -/
inductive ScalarKind where
  | null
  | bool
  /-- A whole number; one that needs all of 64 bits without a sign is large. -/
  | int (large : Bool)
  | float
  | time
  | text
  deriving DecidableEq, Repr

/-- The spellings of null; a plain scalar of such a text is one. -/
def nullTexts : List String := ["", "~", "null", "Null", "NULL"]

/-- The spellings of truth values. -/
def boolTexts : List String := ["true", "True", "TRUE", "false", "False", "FALSE"]

/-- The spellings of what is no finite number. -/
def infiniteTexts : List String :=
  [".nan", ".NaN", ".NAN", ".inf", ".Inf", ".INF", "+.inf", "+.Inf", "+.INF", "-.inf", "-.Inf", "-.INF"]

/-! ## Numbers -/

/-- The kind of a whole number, in any base and without its underscores. -/
def intKind? (cs : List Char) : Option ScalarKind :=
  let (base, digits) := Text.announcedBase cs
  if (Text.readAnyBase (String.ofList cs)).toOption.isSome then some (.int false)
  else if (Text.digitsValue base digits).toOption.isSome then some (.int true)
  else
    match cs with
    | '0' :: 'b' :: rest => signedIn 2 rest
    | '0' :: 'o' :: rest => signedIn 8 rest
    | _ => none
where
  /-- The kind of a number whose sign stands behind its base. -/
  signedIn (base : Nat) (cs : List Char) : Option ScalarKind :=
    let (negative, digits) := Text.splitSign cs
    ((Text.digitsValue base digits).bind (Text.signed negative)).toOption.map fun _ => .int false

/-- Whether a text is a number with a point or an exponent that is not past the largest. -/
def isFloat (cs : List Char) : Bool :=
  let unsigned := (Text.splitSign cs).2
  let whole := unsigned.takeWhile Char.isDigit
  let rest := unsigned.drop whole.length
  let (fraction, rest) :=
    match rest with
    | '.' :: rest => (rest.takeWhile Char.isDigit, rest.dropWhile Char.isDigit)
    | rest => ([], rest)
  let exponentFits : Bool :=
    match rest with
    | [] => true
    | letter :: rest =>
      (letter = 'e' || letter = 'E') &&
        let digits := (Text.splitSign rest).2
        !digits.isEmpty && digits.all Char.isDigit
  !(whole.isEmpty && fraction.isEmpty) && exponentFits && (Number.parse unsigned).isSome

/-! ## Times -/

/-- One digit or two off the front. -/
def fewDigits : List Char → Option (Nat × List Char)
  | a :: b :: rest =>
    if !a.isDigit then none
    else if b.isDigit then some ((a.toNat - 48) * 10 + (b.toNat - 48), rest)
    else some (a.toNat - 48, b :: rest)
  | [a] => if a.isDigit then some (a.toNat - 48, []) else none
  | [] => none

/-- Passes over a day such as `2001-1-23`. -/
def skipDay (cs : List Char) : Option (List Char) := do
  let year ← (Text.digitsValue 10 (cs.take 4)).toOption
  guard ((cs.take 4).length = 4 && (cs.take 4).all Char.isDigit)
  let '-' :: cs := cs.drop 4 | none
  let (month, cs) ← fewDigits cs
  let '-' :: cs := cs | none
  let (day, cs) ← fewDigits cs
  guard (1 ≤ month && month ≤ 12 && 1 ≤ day && day ≤ Text.daysIn year month)
  return cs

/-- Passes over a time such as `2:3:4.5`. -/
def skipTime (cs : List Char) : Option (List Char) := do
  let (hour, cs) ← fewDigits cs
  let ':' :: cs := cs | none
  let (minute, cs) ← fewDigits cs
  let ':' :: cs := cs | none
  let (second, cs) ← fewDigits cs
  guard (hour < 24 && minute < 60 && second < 60)
  match cs with
  | point :: digit :: rest =>
    if (point = '.' || point = ',') && digit.isDigit then return rest.dropWhile Char.isDigit
    else return cs
  | cs => return cs

/-- Whether a text is a day, a day with a time, or both with an offset. -/
def isTime (cs : List Char) : Bool :=
  match skipDay cs with
  | some [] => true
  | some (' ' :: cs) => skipTime cs == some []
  | some (letter :: cs) => (letter = 'T' || letter = 't') && (skipTime cs).any Text.isOffset
  | none => false

/-! ## Scalars -/

namespace Scalar

/-- What a text looks like; times are told from texts only where they may stand. -/
def kindOf (times : Bool) (text : String) : ScalarKind :=
  let cs := text.toList
  let grouped := cs.filter (· ≠ '_')
  if nullTexts.contains text then .null
  else if boolTexts.contains text then .bool
  else if infiniteTexts.contains text then .float
  else
    match cs with
    | '.' :: _ => if isFloat cs then .float else .text
    | c :: _ =>
      if !(c.isDigit || c = '+' || c = '-') then .text
      else if times && isTime cs then .time
      else
        match intKind? grouped with
        | some kind => kind
        | none => if isFloat grouped then .float else .text
    | [] => .null

/-- What a scalar looks like. -/
def kind (s : Scalar) : ScalarKind :=
  if s.tag = "" then if s.plain then kindOf true s.text else .text
  else if s.tag = "!!timestamp" then kindOf true s.text
  else kindOf false s.text

/-- Whether a scalar is tagged as nothing, or is plain and looks like it. -/
def isNull (s : Scalar) : Bool := s.tag = "!!null" || (s.tag = "" && s.plain && nullTexts.contains s.text)

/-- What a scalar stands for where a text is wanted. -/
inductive Meaning where
  | nothing
  | text (text : Text)
  /-- It is not what its tag says. -/
  | mismatch

/-- What a scalar stands for: its text, unless it is nothing or contradicts its tag. -/
def meaning (s : Scalar) : Meaning :=
  let wanted (fits : Bool) : Meaning := if fits then .text s.text else .mismatch
  match s.tag with
  | "" => if s.isNull then .nothing else .text s.text
  | "!!null" => if s.kind = .null then .nothing else .mismatch
  | "!!bool" => wanted (s.kind = .bool)
  | "!!int" => wanted (s.kind = .int false || s.kind = .int true)
  | "!!float" => wanted (s.kind = .float || s.kind = .int false)
  | "!!timestamp" => wanted (s.kind = .time)
  | "!!binary" =>
    match Text.unbase64? s.text.toList with
    | some bytes => .text (.ofList bytes)
    | none => .mismatch
  | _ => .text s.text

/-- Whether a scalar stands for a text even where any value may stand. -/
def isText (s : Scalar) : Bool :=
  if ["!!null", "!!bool", "!!int", "!!float", "!!timestamp"].contains s.tag then false
  else s.tag ≠ "" || s.kind = .text

/-- Whether a scalar is the key whose value is merged into its mapping. -/
def isMerge (s : Scalar) : Bool :=
  s.text = "<<" && (s.tag = "!!merge" || (s.tag = "" && s.plain))

end Scalar

/-! ## Nodes -/

/-- A node of a document. -/
inductive Node where
  | scalar (scalar : Scalar)
  | list (line : Nat) (items : List Node)
  | mapping (line : Nat) (entries : List (Node × Node))
  /-- An alias: the name it gives, the number of the node that has it, and its own number. -/
  | alias (line : Nat) (name : String) (anchor number : Nat)
  deriving Repr, Inhabited

namespace Node

/-- The empty value at a line. -/
def empty (line : Nat) : Node := .scalar { line, plain := true, text := "" }

def line : Node → Nat
  | .scalar s => s.line
  | .list line _ => line
  | .mapping line _ => line
  | .alias line _ _ _ => line

/-- The text of a scalar and the name of an alias; other nodes have none. -/
def text : Node → String
  | .scalar s => s.text
  | .alias _ name _ _ => name
  | _ => ""

/-- The sort of a node by a number. -/
def sort : Node → Nat
  | .scalar _ => 0
  | .list _ _ => 1
  | .mapping _ _ => 2
  | .alias _ _ _ _ => 3

/-- Whether two keys of a mapping count as one. -/
def sameKey (a b : Node) : Bool := a.sort = b.sort && a.text = b.text

/-- Whether the entries of a mapping repeat a key. -/
def repeats : List (Node × Node) → Bool
  | [] => false
  | (key, _) :: rest => rest.any (fun e => e.1.sameKey key) || repeats rest

end Node

/-- A document: its root, and the nodes that aliases stand for by their numbers. -/
structure Document where
  root : Node
  anchored : Array Node := #[]
  /-- Number of characters. No chain of nodes in which each holds the next or an alias of it is longer. -/
  size : Nat

/-- The node that an alias stands for. -/
def Document.target (d : Document) (anchor : Nat) : Node := d.anchored.getD anchor (.empty 0)

end FlowTyping.Yaml
