import FlowTyping.Text.Quoted

/-!
# Parsing expressions

A grammar is data: for every rule an expression of type `Peg`, indexed by the value that a match
yields. Choice is ordered, repetition is greedy, `not` looks ahead.

`Peg.run` (in `FlowTyping.Peg.Run`) matches an expression at a place of a source. Because choices are
tried one after the other, a failed parse has no single cause; what is reported is what was wanted
at the farthest place at which anything failed to match.
-/

namespace FlowTyping.Peg

open FlowTyping.Text

/-- A place in a source. A line break is counted as column zero of the line that it begins. -/
structure Place where
  line : Nat
  column : Nat
  offset : Nat
  deriving DecidableEq, Repr

/-- A place together with the bytes from there on. -/
structure Cursor extends Place where
  rest : Bytes
  deriving Repr

/-- Why a source is refused. -/
inductive Cause where
  /-- A byte that is not part of a character. -/
  | encoding
  /-- An escape that a quoted text does not allow. -/
  | escape
  /-- A numeral past the largest number. -/
  | range (numeral : String)
  /-- Nothing matched; what would have matched at the farthest place. -/
  | unmatched (wanted : List String)
  /-- There is no rule of the name that was asked for. -/
  | entry
  deriving DecidableEq, Repr

/-- A list in words: commas, and `or` before the last. -/
def orList : List String → String
  | [] => ""
  | [s] => s
  | [s, t] => s ++ " or " ++ t
  | s :: rest => s ++ ", " ++ orList rest

def Cause.message : Cause → String
  | .encoding => "invalid encoding"
  | .escape => "invalid syntax"
  | .range numeral => "strconv.ParseFloat: parsing " ++ quoteText numeral ++ ": value out of range"
  | .unmatched wanted => "no match found, expected: " ++ orList wanted
  | .entry => "invalid entrypoint"

/-- A refusal: where, inside which rule, and why. -/
structure Fault where
  place : Place
  rule : Option String
  cause : Cause
  deriving DecidableEq, Repr

/-- A refusal on a line of its own. -/
def Fault.render (f : Fault) : String :=
  toString f.place.line ++ ":" ++ toString f.place.column ++ " (" ++ toString f.place.offset ++ "): " ++
    (match f.rule with
     | some rule => "rule " ++ rule ++ ": "
     | none => "") ++ f.cause.message

/-- The part of the source that an expression matched. -/
structure Span where
  offset : Nat
  bytes : Bytes

end Peg

/-- A parsing expression over rules that yield values of the given types. -/
inductive Peg {Rule : Type} (Value : Rule → Type) : Type → Type 1 where
  /-- These characters. -/
  | lit (text : String) : Peg Value Unit
  /-- One character of a class, shown as given. -/
  | cls (shown : String) (test : Char → Bool) : Peg Value Unit
  /-- Any character. -/
  | any : Peg Value Unit
  /-- A match of a rule. -/
  | rule (r : Rule) : Peg Value (Value r)
  /-- One after the other. -/
  | seq {α β : Type} (p : Peg Value α) (q : Peg Value β) : Peg Value (α × β)
  /-- The second only if the first does not match. -/
  | alt {α : Type} (p q : Peg Value α) : Peg Value α
  /-- As often as possible. -/
  | many {α : Type} (p : Peg Value α) : Peg Value (List α)
  /-- As often as possible, at least once. -/
  | many1 {α : Type} (p : Peg Value α) : Peg Value (List α)
  /-- If possible. -/
  | opt {α : Type} (p : Peg Value α) : Peg Value (Option α)
  /-- Only where the expression does not match; takes nothing. -/
  | not {α : Type} (p : Peg Value α) : Peg Value Unit
  /-- A value made of what was matched; it may come with a refusal, which does not stop the parse
  but makes it fail in the end. -/
  | act {α β : Type} (p : Peg Value α) (f : Peg.Span → α → β × Option Peg.Cause) : Peg Value β

namespace Peg

variable {Rule : Type} {Value : Rule → Type}

/-- Changes the value of a match. -/
def map {α β : Type} (f : α → β) (p : Peg Value α) : Peg Value β := .act p fun _ a => (f a, none)

/-- Makes a value of a match and of where it starts. -/
def mapAt {α β : Type} (f : Nat → α → β) (p : Peg Value α) : Peg Value β :=
  .act p fun span a => (f span.offset a, none)

/-- The text that was matched. -/
def text {α : Type} (p : Peg Value α) : Peg Value String :=
  .act p fun span _ => (Text.shown span.bytes, none)

instance : Functor (Peg Value) where
  map := map

instance : SeqLeft (Peg Value) where
  seqLeft p q := map Prod.fst (.seq p (q ()))

instance : SeqRight (Peg Value) where
  seqRight p q := map Prod.snd (.seq p (q ()))

instance {α : Type} : OrElse (Peg Value α) where
  orElse p q := .alt p (q ())

end Peg
end FlowTyping
