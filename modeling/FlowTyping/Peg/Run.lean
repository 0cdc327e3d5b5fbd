import FlowTyping.Peg.Basic

/-!
# Matching parsing expressions

`Peg.match` runs an expression at a cursor. A match moves the cursor; a failure leaves it. What is
kept through both is the `Trace`: the farthest place at which something failed and what was wanted
there, and the refusals met on the way.

Inside `not` the sense is turned round: there it is a match that counts as a failure, and it is noted
with an exclamation mark.

* `Peg.parse` matches a rule at the start of a source and answers its value, or the refusals.
-/

namespace FlowTyping.Peg

open FlowTyping.Text

/-- What is kept of an attempt to parse. -/
structure Trace where
  /-- The farthest place at which something failed to match. -/
  farthest : Place := { line := 1, column := 1, offset := 0 }
  /-- What was wanted there, the latest first. -/
  wanted : List String := []
  /-- Refusals met so far, the latest first. -/
  faults : List Fault := []
  deriving Repr

/-- Where an expression stands: the innermost rule, and whether a match counts as a failure. -/
structure Context where
  rule : Option String := none
  inverted : Bool := false

/-- Notes whether something matched at a place. -/
def Trace.note (tr : Trace) (ctx : Context) (matched : Bool) (place : Place) (shown : String) : Trace :=
  if matched != ctx.inverted || place.offset < tr.farthest.offset then tr
  else
    let shown := if ctx.inverted then "!" ++ shown else shown
    if tr.farthest.offset < place.offset then { tr with farthest := place, wanted := [shown] }
    else { tr with wanted := shown :: tr.wanted }

/-- Notes a refusal. -/
def Trace.refuse (tr : Trace) (ctx : Context) (place : Place) (cause : Cause) : Trace :=
  { tr with faults := { place := place, rule := ctx.rule, cause } :: tr.faults }

/-- Arrives at the symbol that follows: counts a column or a line, and refuses a stray byte. -/
def arrive (ctx : Context) (line column offset : Nat) (rest : Bytes) (tr : Trace) :
    Cursor × Trace :=
  match next? rest with
  | some (.char '\n', _) => ({ line := line + 1, column := 0, offset, rest }, tr)
  | some (.stray _, _) =>
    let cur : Cursor := { line, column := column + 1, offset, rest }
    (cur, tr.refuse ctx cur.toPlace .encoding)
  | _ => ({ line, column := column + 1, offset, rest }, tr)

/-- Moves past the symbol at the cursor. -/
def advance (ctx : Context) (cur : Cursor) (width : Nat) (tr : Trace) : Cursor × Trace :=
  arrive ctx cur.line cur.column (cur.offset + width) (cur.rest.drop width) tr

/-- Moves past the given characters, if they stand at the cursor. -/
def matchChars (ctx : Context) : List Char → Cursor → Trace → Option Cursor × Trace
  | [], cur, tr => (some cur, tr)
  | c :: cs, cur, tr =>
    match next? cur.rest with
    | some (s, width) =>
      if s.toChar = c then
        let (cur, tr) := advance ctx cur width tr
        matchChars ctx cs cur tr
      else (none, tr)
    | none => (none, tr)

variable {Rule : Type} {Value : Rule → Type}

/-- Rules with their names. -/
structure Grammar (Value : Rule → Type) where
  name : Rule → String
  body : (r : Rule) → Peg Value (Value r)

/-- Matches an expression with at most `fuel` nested steps. -/
def match? (g : Grammar Value) : (fuel : Nat) → {α : Type} → Peg Value α → Context → Cursor → Trace →
    Option (α × Cursor) × Trace
  | 0, _, _, _, _, tr => (none, tr)
  | _ + 1, _, .lit text, ctx, cur, tr =>
    match matchChars ctx text.toList cur tr with
    | (some after, tr) => (some ((), after), tr.note ctx true cur.toPlace (quoteText text))
    | (none, tr) => (none, tr.note ctx false cur.toPlace (quoteText text))
  | _ + 1, _, .cls shown test, ctx, cur, tr =>
    match next? cur.rest with
    | some (s, width) =>
      if test s.toChar then
        let (after, tr) := advance ctx cur width tr
        (some ((), after), tr.note ctx true cur.toPlace shown)
      else (none, tr.note ctx false cur.toPlace shown)
    | none => (none, tr.note ctx false cur.toPlace shown)
  | _ + 1, _, .any, ctx, cur, tr =>
    match next? cur.rest with
    | some (_, width) =>
      let (after, tr) := advance ctx cur width tr
      (some ((), after), tr.note ctx true cur.toPlace ".")
    | none => (none, tr.note ctx false cur.toPlace ".")
  | n + 1, _, .rule r, ctx, cur, tr =>
    match? g n (g.body r) { ctx with rule := some (g.name r) } cur tr
  | n + 1, _, .seq p q, ctx, cur, tr =>
    match match? g n p ctx cur tr with
    | (some (a, cur), tr) =>
      match match? g n q ctx cur tr with
      | (some (b, cur), tr) => (some ((a, b), cur), tr)
      | (none, tr) => (none, tr)
    | (none, tr) => (none, tr)
  | n + 1, _, .alt p q, ctx, cur, tr =>
    match match? g n p ctx cur tr with
    | (some found, tr) => (some found, tr)
    | (none, tr) => match? g n q ctx cur tr
  | n + 1, _, .many p, ctx, cur, tr =>
    match match? g n p ctx cur tr with
    | (some (a, after), tr) =>
      match match? g n (.many p) ctx after tr with
      | (some (as, after), tr) => (some (a :: as, after), tr)
      | (none, tr) => (some ([a], after), tr)
    | (none, tr) => (some ([], cur), tr)
  | n + 1, _, .many1 p, ctx, cur, tr =>
    match match? g n p ctx cur tr with
    | (some (a, after), tr) =>
      match match? g n (.many p) ctx after tr with
      | (some (as, after), tr) => (some (a :: as, after), tr)
      | (none, tr) => (some ([a], after), tr)
    | (none, tr) => (none, tr)
  | n + 1, _, .opt p, ctx, cur, tr =>
    match match? g n p ctx cur tr with
    | (some (a, after), tr) => (some (some a, after), tr)
    | (none, tr) => (some (none, cur), tr)
  | n + 1, _, .not p, ctx, cur, tr =>
    match match? g n p { ctx with inverted := !ctx.inverted } cur tr with
    | (some _, tr) => (none, tr)
    | (none, tr) => (some ((), cur), tr)
  | n + 1, _, .act p f, ctx, cur, tr =>
    match match? g n p ctx cur tr with
    | (some (a, after), tr) =>
      let span : Span := { offset := cur.offset, bytes := cur.rest.take (after.offset - cur.offset) }
      match f span a with
      | (b, none) => (some (b, after), tr)
      | (b, some cause) => (some (b, after), tr.refuse ctx cur.toPlace cause)
    | (none, tr) => (none, tr)

/-- What is wanted at the end of a source is written as such, and stands last. -/
def wantedList (wanted : List String) : List String :=
  let plain := (wanted.filter (· != "!.")).eraseDups.mergeSort fun a b => decide (a ≤ b)
  if wanted.contains "!." then plain ++ ["EOF"] else plain

/-- The refusals of a parse that did not match, or that matched with refusals: those met on the way
in order and without repetitions, or else what was wanted at the farthest place. -/
def Trace.refusals (tr : Trace) (matched : Bool) : List Fault :=
  match tr.faults.reverse with
  | [] =>
    if matched then []
    else [{ place := tr.farthest, rule := none, cause := .unmatched (wantedList tr.wanted) }]
  | faults => faults.eraseDups

/-- Number of nested steps that a source may take: a bounded number between two symbols. -/
def stepBound (source : Bytes) : Nat := 1024 * (source.length + 2)

/-- Matches a rule at the start of a source. The source need not be used up. -/
def parse (g : Grammar Value) (r : Rule) (source : Bytes) : Except (List Fault) (Value r) :=
  let (cur, tr) := arrive {} 1 0 0 source {}
  match match? g (stepBound source) (.rule r) {} cur tr with
  | (some (a, _), tr) => if tr.faults.isEmpty then .ok a else .error (tr.refusals true)
  | (none, tr) => .error (tr.refusals false)

end FlowTyping.Peg
