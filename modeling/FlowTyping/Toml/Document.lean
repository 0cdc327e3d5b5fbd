import FlowTyping.Toml.Reader

/-!
# TOML documents

The tree of tables that the lines of a document describe. Lines are taken in one by one, and each has to
agree with those before it: a key is defined once, and a path leads through tables.

* A table that only stands in the path of another key is *implied*; a line may still define it, once.
* A key whose value was last written in square brackets may be defined again, and the newer value
  takes its place.
* `Document.ofLines?` takes the lines in; `Document.keys` keeps every key in the order in which it was
  written.
-/

namespace FlowTyping.Toml

/-- What has been read of a document. -/
structure Document where
  root : Table := []
  /-- The tables that are only implied. -/
  implied : List Key := []
  /-- The keys whose value was last written in square brackets. -/
  listed : List Key := []
  /-- The table that the next keys are in. -/
  context : Key := []
  /-- All keys that have been written, from the last to the first. -/
  written : List Key := []
  deriving Repr

/-- The table under a path; of an array of tables it is the last. -/
def Table.at? (t : Table) : Key → Option Table
  | [] => some t
  | name :: path =>
    match t.lookup name with
    | some (.table inner) => Table.at? inner path
    | some (.tables items) => (items.getLast?).bind fun inner => Table.at? inner path
    | _ => none

/-- The table with the one under a path changed. -/
def Table.modify (f : Table → Table) (t : Table) : Key → Table
  | [] => f t
  | name :: path =>
    match t.lookup name with
    | some (.table inner) => t.put name (.table (Table.modify f inner path))
    | some (.tables items) =>
      match items.getLast? with
      | some inner => t.put name (.tables (items.dropLast ++ [Table.modify f inner path]))
      | none => t
    | _ => t

/-- The table with a value under a dotted key; the parts of the key lead through tables, which are made
where there are none. -/
def Table.putKey (v : Value) (t : Table) : Key → Option Table
  | [] => some t
  | [name] => some (t.put name v)
  | name :: path =>
    match t.lookup name with
    | none => (Table.putKey v [] path).map fun inner => t.put name (.table inner)
    | some (.table inner) => (Table.putKey v inner path).map fun inner => t.put name (.table inner)
    | some _ => none

namespace Document

/-- Notes that a table is only implied. -/
def imply (d : Document) (key : Key) : Document :=
  if d.implied.contains key then d else { d with implied := key :: d.implied }

/-- Defines a key in the table of the context. A key that has a value is defined again only if that was a
list, which is replaced, or an implied table, which stays as it is. -/
def define (d : Document) (name : String) (v : Value) : Option Document := do
  let table ← d.root.at? d.context
  let key := d.context ++ [name]
  let replaced := { d with root := d.root.modify (·.put name v) d.context }
  if (table.lookup name).isNone then return replaced
  else if d.listed.contains key then return { replaced with implied := d.implied.erase key }
  else if d.implied.contains key then return { d with implied := d.implied.erase key }
  else none

/-- Notes whether the value of a key is written in square brackets. An empty name stands for the table of
the context itself. -/
def note (d : Document) (name : String) (list : Bool) : Document :=
  let key := if name.isEmpty then d.context else d.context ++ [name]
  let key := if key.isEmpty then [""] else key
  let others := d.listed.filter (· ≠ key)
  { d with listed := if list then key :: others else others }

/-- Makes the tables on a path that are not there yet; they are implied. `above` is the part of the path
that has been passed. -/
def makePath (d : Document) (above : Key) : Key → Option Document
  | [] => some d
  | name :: path => do
    let table ← d.root.at? above
    let d :=
      if (table.lookup name).isSome then d
      else { d.imply (above ++ [name]) with
        root := d.root.modify (·.put name (.table [])) above }
    makePath d (above ++ [name]) path

/-- The array of tables under a name with one more table. -/
def addTable (name : String) (t : Table) : Option Table :=
  match t.lookup name with
  | none => some (t.put name (.tables [[]]))
  | some (.tables items) => some (t.put name (.tables (items ++ [[]])))
  | some _ => none

/-- Makes a table, or one more in an array of tables, and goes on inside of it. -/
def enter (d : Document) (key : Key) (array : Bool) : Option Document := do
  let name ← key.getLast?
  let d ← d.makePath [] key.dropLast
  let d := { d with context := key.dropLast }
  let table ← d.root.at? d.context
  let d ←
    if array then do
      let table ← addTable name table
      pure { d with root := d.root.modify (fun _ => table) d.context }
    else d.define name (.table [])
  return { d with context := key }

/-- Goes on inside of the tables that lead to the last part of a dotted key. -/
def enterPath (d : Document) : Key → Option Document
  | [] => some d
  | name :: path => do
    let key := d.context ++ [name]
    enterPath (← (d.imply key).enter key false) path

/-- Notes that a key has been written. -/
def write (d : Document) (key : Key) : Document := { d with written := key :: d.written }

mutual
/-- Takes in the value of a key; `inList` says whether it is an item of a list. -/
def value (d : Document) (name : String) (inList : Bool) : Expr → Option (Document × Value)
  | .scalar s => some (d, .scalar s)
  | .list items => do
    let (d, values) ← (d.note name true).items name items
    return (d, .list values)
  | .table entries => do
    let inner := d.context ++ [name]
    let (e, table) ← (← (d.imply inner).enter inner inList).entries [] entries
    return ({ e with context := d.context }, .table table)

/-- Takes in the items of a list. -/
def items (d : Document) (name : String) : List Expr → Option (Document × List Value)
  | [] => some (d, [])
  | item :: rest => do
    let (d, v) ← d.value name true item
    let (d, vs) ← d.items name rest
    return (d, v :: vs)

/-- Takes in the entries of a table in braces, and collects them. -/
def entries (d : Document) (table : Table) : List (Key × Expr) → Option (Document × Table)
  | [] => some (d, table)
  | (key, expr) :: rest => do
    let name ← key.getLast?
    let e ← d.enterPath key.dropLast
    let (e, v) ← (e.write (e.context ++ [name])).value name false expr
    let e ← e.define name v
    let e := e.note name expr.isList
    { e with context := d.context }.entries (← table.putKey v key) rest
end

/-- Takes in a line. -/
def line (d : Document) : Line → Option Document
  | .header key => do return ((← d.enter key false).note "" false).write key
  | .arrayHeader key => do return ((← d.enter key true).note "" false).write key
  | .pair key expr => do
    let (e, _) ← d.entries [] [(key, expr)]
    return e

/-- The document that lines make up. -/
def ofLines? (lines : List Line) : Option Document := lines.foldlM line {}

/-- Reads a document; `none` if it is malformed. -/
def read (text : String) : Option Document := (readLines text).bind ofLines?

/-- All keys in the order in which they were written. -/
def keys (d : Document) : List Key := d.written.reverse

end Document
end FlowTyping.Toml
