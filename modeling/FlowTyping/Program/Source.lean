import FlowTyping.Yaml.Node

/-!
# Written programs

What a program file says before any of its notation is read: functions, bodies and their statements as
texts. Type aliases and classes stay nodes of the document, because they are read one by one and
errors cite their lines.

Decoding goes on after a value of the wrong shape, so that a statement that is none, which is reported
in words, is found first. Mappings may merge others into themselves: what they say of their own comes
first. Aliases are followed, but not into themselves, and not so often that they make up nearly all of a
document.

* `Decode.follow` leads from a node to what it stands for.
* `Decode.record` decodes a mapping entry by entry.
* `Decode.program` decodes a program file, `Decode.classSource` a class in it.
-/

namespace FlowTyping

/-- A statement in a program file: a mapping, or a keyword on its own. -/
inductive Step where
  | mk (line : Nat) (keys : List String) (words : List (String × Text))
      (yes no body default : List Step) (clauses : List (List Text × List Step))
  deriving Repr, Inhabited

namespace Step

def line : Step → Nat
  | .mk line _ _ _ _ _ _ _ => line

/-- The keys of the mapping, known or not. -/
def keys : Step → List String
  | .mk _ keys _ _ _ _ _ _ => keys

/-- Whether a key is there, with a value or without. -/
def has (s : Step) (key : String) : Bool := s.keys.contains key

/-- The text of a key; a missing or empty one is the empty text. -/
def word : Step → String → Text
  | .mk _ _ words _ _ _ _ _, key => (words.lookup key).getD ""

/-- The text of a key that is a name. -/
def name (s : Step) (key : String) : String := (s.word key).toString

end Step

/-- A function in a program file. -/
structure FunctionSource where
  signature : Text := ""
  overloads : List Text := []
  implementation : Text := ""
  predicate : Text := ""
  deriving Repr

/-- A class in a program file. -/
structure ClassSource where
  parents : List String := []
  props : Text := ""
  deriving Repr

/-- A function body in a program file. -/
structure BodySource where
  name : String := ""
  signature : Text := ""
  body : List Step := []
  deriving Repr

/-- A program file. -/
structure ProgramSource where
  types : Option Yaml.Node := none
  classes : Option Yaml.Node := none
  functions : List (String × FunctionSource) := []
  bodies : List BodySource := []
  deriving Repr

/-- Why decoding ends. -/
inductive DecodeFault where
  /-- A value contradicts its tag, or an alias or a merge is wrong. -/
  | malformed
  /-- A word stands where a statement is wanted and is none. -/
  | unknown (line : Nat) (word : String)
  /-- A list stands where a statement is wanted. -/
  | shape (line : Nat)
  deriving DecidableEq, Repr

/-- What decoding has seen. -/
structure Tally where
  /-- Whether some value had the wrong shape. -/
  misshapen : Bool := false
  /-- Number of nodes decoded. -/
  decoded : Nat := 0
  /-- Number of those that were reached by aliases. -/
  aliased : Nat := 0
  /-- The aliases that are being followed. -/
  active : List Nat := []

/-- Whether aliases make up too much: all but a hundredth in documents of up to 400000 nodes, all but
nine tenths in those of 4000000 and more, and in between in proportion. -/
def Tally.excessive (t : Tally) : Bool :=
  let low := 400000
  let high := 4000000
  let excess := min (max t.decoded low) high - low
  100 < t.aliased && 1000 < t.decoded &&
    t.decoded * (99 * (high - low) - 89 * excess) < t.aliased * 100 * (high - low)

/-- Decoding of a document. -/
abbrev Decode := ReaderT Yaml.Document (StateT Tally (Except DecodeFault))

namespace Decode

open Yaml (Scalar)

variable {α : Type}

/-- Decodes, and says whether some value had the wrong shape. -/
def runOn (d : Yaml.Document) (x : Decode α) : Except DecodeFault (α × Bool) := do
  let (a, t) ← (x.run d).run {}
  return (a, t.misshapen)

/-- Notes a value of the wrong shape. -/
def misshapen (dummy : α) : Decode α := do
  modify fun t => { t with misshapen := true }
  return dummy

/-- Ends decoding. -/
def malformed : Decode α := throw .malformed

/-- Decodes apart from what was seen before, and notes only whether some value had the wrong shape. -/
def apart (x : Decode α) : Decode α := do
  let outer ← get
  set ({} : Tally)
  let a ← x
  let inner ← get
  set { outer with misshapen := outer.misshapen || inner.misshapen }
  return a

/-! ## Nodes -/

/-- Counts a node. -/
def count : Decode Unit := do
  let t ← get
  let aliased := if t.active.isEmpty then t.aliased else t.aliased + 1
  let t := { t with decoded := t.decoded + 1, aliased }
  if t.excessive then malformed else set t

/-- Decodes what a node stands for. -/
def follow (n : Yaml.Node) (decode : Yaml.Node → Decode α) : Decode α := do
  count
  match n with
  | .alias _ _ anchor number =>
    let t ← get
    if t.active.contains number then malformed
    else
      set { t with active := number :: t.active }
      count
      let a ← decode ((← read).target anchor)
      modify fun t => { t with active := t.active.drop 1 }
      return a
  | n => decode n

/-- The text of a scalar; none if it is nothing. -/
def scalarText (s : Scalar) : Decode (Option Text) :=
  match s.meaning with
  | .nothing => return none
  | .text t => return some t
  | .mismatch => malformed

/-- A text that may be nothing. -/
def text? (n : Yaml.Node) : Decode (Option Text) :=
  follow n fun
    | .scalar s => scalarText s
    | _ => misshapen none

/-- A text; nothing is the empty one. -/
def text (n : Yaml.Node) : Decode Text := do return (← text? n).getD ""

/-- What stands where a collection is wanted and is none: only nothing fits. -/
def emptyFor (dummy : α) : Yaml.Node → Decode α
  | .scalar s => do
    match ← scalarText s with
    | none => return dummy
    | some _ => misshapen dummy
  | _ => misshapen dummy

/-- The items of a list; one that is nothing does not count. -/
def items (item : Yaml.Node → Decode (Option α)) (n : Yaml.Node) : Decode (List α) :=
  follow n fun
    | .list _ items => items.filterMapM fun n => item n
    | n => emptyFor [] n

/-- A list of texts. -/
def texts : Yaml.Node → Decode (List Text) := items text?

/-! ## Mappings -/

/-- A mapping in the making. -/
structure Partial (α : Type) where
  value : α
  /-- The keys that are not taken again, if the mapping is merged into another. -/
  settled : Option (List Text)
  /-- The keys that were taken. -/
  seen : List Text := []
  /-- What is merged into the mapping. -/
  merge : Option Yaml.Node := none

/-- Decodes an entry. A key of those that may come `once` must not come again. -/
def entry (once : List String) (field : α → String → Yaml.Node → Decode α) (p : Partial α)
    (key value : Yaml.Node) : Decode (Partial α) := do
  let isMerge : Bool := match key with
    | .scalar s => s.isMerge
    | _ => false
  if isMerge then return { p with merge := some value }
  else
    match ← text? key with
    | none => return p
    | some name =>
      if p.settled.any (·.contains name) then return p
      else
        let p := { p with settled := p.settled.map (name :: ·) }
        if once.contains name.toString && p.seen.contains name then misshapen p
        else
          let a ← field p.value name.toString value
          return { p with value := a, seen := name :: p.seen }

/-- The keys of a mapping that are texts. -/
def ownKeys (entries : List (Yaml.Node × Yaml.Node)) : Decode (List Text) :=
  entries.filterMapM fun (key, _) =>
    follow key fun
      | .scalar s => do
        let t ← scalarText s
        return if s.isText then t else none
      | _ => return none

/-- Whether a node is a mapping or stands for one. -/
def isMapping (d : Yaml.Document) : Yaml.Node → Bool
  | .mapping _ _ => true
  | .alias _ _ anchor _ =>
    match d.target anchor with
    | .mapping _ _ => true
    | _ => false
  | _ => false

/-- The mappings that are merged: one, or those of a list. -/
def mergedNodes (n : Yaml.Node) : Decode (List Yaml.Node) := do
  let d ← read
  match n with
  | .list _ items => return items
  | n => if isMapping d n then return [n] else malformed

/-- Decodes a mapping entry by entry, then those that are merged into it; `fuel` bounds how deep they are
merged. -/
def record (once : List String) (field : α → String → Yaml.Node → Decode α) :
    (fuel : Nat) → (settled : Option (List Text)) → α → Yaml.Node → Decode (α × Option (List Text))
  | 0, _, _, _ => malformed
  | n + 1, settled, a, .mapping _ entries => do
    if Yaml.Node.repeats entries then misshapen (a, settled)
    else
      let p ← entries.foldlM (fun p (key, value) => entry once field p key value) { value := a, settled }
      match p.merge with
      | none => return (p.value, p.settled)
      | some merged =>
        let own ← match p.settled with
          | some names => pure names
          | none => ownKeys entries
        let (a, names) ← (← mergedNodes merged).foldlM (fun (a, names) m => do
          if isMapping (← read) m then follow m fun m => record once field n names a m else malformed)
          (p.value, some own)
        return (a, if settled.isSome then names else none)
  | _ + 1, settled, a, n => do return (← emptyFor a n, settled)

/-- A record whose fields may each come once. -/
def struct (known : List String) (field : α → String → Yaml.Node → Decode α) (start : α) (n : Yaml.Node) :
    Decode α := do
  return (← record known field (← read).size none start n).1

/-- A record as an item of a list: nothing is none. -/
def structItem (known : List String) (field : α → String → Yaml.Node → Decode α) (start : α)
    (n : Yaml.Node) : Decode (Option α) :=
  follow n fun
    | .scalar s => do emptyFor none (.scalar s)
    | n => some <$> struct known field start n

/-! ## Program files -/

/-- A class. -/
def classSource (n : Yaml.Node) : Decode ClassSource :=
  follow n (struct ["extends", "props"] (fun c key value => do
    match key with
    | "extends" => return { c with parents := (← texts value).map (·.toString) }
    | "props" => return { c with props := ← text value }
    | _ => return c) {})

/-- A function. -/
def functionSource (n : Yaml.Node) : Decode FunctionSource :=
  follow n (struct ["signature", "overloads", "implementation", "predicate"] (fun f key value => do
    match key with
    | "signature" => return { f with signature := ← text value }
    | "overloads" => return { f with overloads := ← texts value }
    | "implementation" => return { f with implementation := ← text value }
    | "predicate" => return { f with predicate := ← text value }
    | _ => return f) {})

/-- Functions by name; the last one of a name counts. -/
def functions (n : Yaml.Node) : Decode (List (String × FunctionSource)) :=
  follow n (struct [] (fun fs name value => do
    let f ← functionSource value
    return fs.filter (·.1 ≠ name) ++ [(name, f)]) [])

/-- The keys of a statement whose values are texts. -/
def wordKeys : List String :=
  ["let", "assign", "type", "value", "call", "if", "while", "switch", "return", "throw"]

/-- The keys of a statement whose values are not. -/
def blockKeys : List String := ["then", "else", "do", "default", "cases"]

/-- The statements that are a keyword alone. -/
def loneKeywords : List String := ["break", "continue", "return"]

/-- A clause of a switch: its values and its statements. -/
def clause (block : Yaml.Node → Decode (List Step)) : Yaml.Node → Decode (Option (List Text × List Step)) :=
  structItem ["case", "do"] (fun c key value => do
    match key with
    | "case" => return (← texts value, c.2)
    | "do" => return (c.1, ← block value)
    | _ => return c) ([], [])

/-- Takes an entry into a statement. -/
def stepField (block : Yaml.Node → Decode (List Step)) (s : Step) (key : String) (value : Yaml.Node) :
    Decode Step := do
  let .mk line keys words yes no body default clauses := s
  match key with
  | "then" => return .mk line keys words (← block value) no body default clauses
  | "else" => return .mk line keys words yes (← block value) body default clauses
  | "do" => return .mk line keys words yes no (← block value) default clauses
  | "default" => return .mk line keys words yes no body (← block value) clauses
  | "cases" => return .mk line keys words yes no body default (← items (clause block) value)
  | key =>
    if wordKeys.contains key then
      let w ← text value
      return .mk line keys ((key, w) :: words) yes no body default clauses
    else return s

/-- A statement; one that is nothing is none. `fuel` bounds how deep statements are nested. -/
def step : (fuel : Nat) → Yaml.Node → Decode (Option Step)
  | 0, _ => malformed
  | n + 1, node =>
    follow node fun
      | .scalar s => do
        if s.isNull then
          let _ ← scalarText s
          return none
        else if loneKeywords.contains s.text then return some (.mk s.line [s.text] [] [] [] [] [] [])
        else throw (.unknown s.line s.text)
      | .mapping line entries => do
        let start : Step := .mk line (entries.map (·.1.text)) [] [] [] [] [] []
        let block (value : Yaml.Node) : Decode (List Step) := items (fun item => step n item) value
        apart do
          count
          return some (← struct (wordKeys ++ blockKeys) (stepField block) start (.mapping line entries))
      | other => throw (.shape other.line)

/-- A block of statements. -/
def block (n : Yaml.Node) : Decode (List Step) := do
  let size := (← read).size
  items (step size) n

/-- A function body. -/
def bodySource : Yaml.Node → Decode (Option BodySource) :=
  structItem ["name", "signature", "body"] (fun b key value => do
    match key with
    | "name" => return { b with name := (← text value).toString }
    | "signature" => return { b with signature := ← text value }
    | "body" => return { b with body := ← block value }
    | _ => return b) {}

/-- A node as it stands. -/
def node (n : Yaml.Node) : Decode Yaml.Node := do
  count
  return n

/-- A program file. -/
def program (n : Yaml.Node) : Decode ProgramSource := do
  count
  follow n (struct ["types", "classes", "functions", "bodies"] (fun p key value => do
    match key with
    | "types" => return { p with types := some (← node value) }
    | "classes" => return { p with classes := some (← node value) }
    | "functions" => return { p with functions := ← functions value }
    | "bodies" => return { p with bodies := ← items bodySource value }
    | _ => return p) {})

end Decode
end FlowTyping
