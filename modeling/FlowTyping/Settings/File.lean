import FlowTyping.Disk
import FlowTyping.Settings.Basic
import FlowTyping.Text.Fold
import FlowTyping.Toml.Document

/-!
# Settings files

`narrow.toml` says what differs from the default settings. It is looked for in a directory and then in
those above it, up to the one that holds a repository.
-/

namespace FlowTyping.Settings

open Toml (Table Document)

/-- The name of a settings file. -/
def fileName : String := "narrow.toml"

/-- The settings with a value under a key of the file, and whether the key is known; `none` if the value
is not of the key's type. -/
def put (s : Settings) (key : String) (v : Toml.Value) : Option (Settings × Bool) :=
  if Text.isNamed "max_nodes" key then (integer v).map fun n => ({ s with maxNodes := n }, true)
  else if Text.isNamed "max_loop_visits" key then
    (integer v).map fun n => ({ s with maxLoopVisits := n }, true)
  else if Text.isNamed "workers" key then (integer v).map fun n => ({ s with workers := n }, true)
  else if Text.isNamed "subtype_cache_size" key then
    (integer v).map fun n => ({ s with subtypeCache := n }, true)
  else if Text.isNamed "strict" key then
    match v with
    | .scalar (.bool b) => some ({ s with strict := b }, true)
    | _ => none
  else some (s, false)
where
  /-- The number that a value is. -/
  integer : Toml.Value → Option Int
    | .scalar (.int n) => some n
    | _ => none

/-- The settings with the entries of the table about logging, and the names of those that are known. -/
def putLog (s : Settings) : Table → Option (Settings × List String)
  | [] => some (s, [])
  | (key, v) :: rest => do
    if Text.isNamed "level" key then
      match v with
      | .scalar (.text t) =>
        let (s, known) ← putLog { s with logLevel := t } rest
        return (s, key :: known)
      | _ => none
    else putLog s rest

/-- The settings with the entries of a file, and the keys that are known. -/
def putTable (s : Settings) : Table → Option (Settings × List Toml.Key)
  | [] => some (s, [])
  | (key, v) :: rest => do
    if Text.isNamed "log" key then
      match v with
      | .table entries =>
        let (s, inner) ← s.putLog entries
        let (s, known) ← putTable s rest
        return (s, [key] :: inner.map (fun name => [key, name]) ++ known)
      | _ => none
    else
      let (s, isKnown) ← s.put key v
      let (s, known) ← putTable s rest
      return (s, if isKnown then [key] :: known else known)

/-- The settings of a file's text. -/
def ofText (path text : String) : Except SettingsError Settings := do
  let some doc := Document.read text | throw (.malformed path)
  let some (s, known) := putTable {} doc.root | throw (.malformed path)
  match doc.keys.filter fun key => !known.contains key with
  | [] => pure ()
  | unknown => throw (.unknownKeys path (unknown.map Toml.renderKey))
  match s.flaw? with
  | some flaw => throw (.flawed (some path) flaw)
  | none => return s

variable {m : Type → Type} [Monad m] [Disk m]

/-- Reads a settings file. -/
def load (path : String) : m (Except SettingsError Settings) := do
  match ← Disk.read path with
  | .error e => return .error (.unreadable path e)
  | .ok text => return ofText path text

/-- Looks for a settings file in a directory and those above it; the directory is given by its parts,
from the last to the first. -/
def findFrom : List String → m (Except SettingsError (Option String × Settings))
  | [] => return .ok (none, {})
  | part :: above => do
    let dir := Path.ofReversed (part :: above)
    let path := dir ++ "/" ++ fileName
    if ← Disk.present path then return (← load path).map fun s => (some path, s)
    else if ← Disk.present (dir ++ "/.git") then return .ok (none, {})
    else findFrom above

/-- Looks for a settings file from a directory upward; without one the default settings hold. -/
def find (dir : String) : m (Except SettingsError (Option String × Settings)) := do
  findFrom (Path.absolute (← Disk.here) dir)

end FlowTyping.Settings
