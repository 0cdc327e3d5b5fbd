import FlowTyping.Command.Flags
import FlowTyping.Service
import FlowTyping.Settings.File
import FlowTyping.Text.EditDistance

/-!
# Commands

* `check` analyses program files and reports what it finds; it fails if a file does.
* `dump` shows the bodies of a program file with what is known at their nodes.
* `serve` answers requests; here its settings are checked, and it ends with its input.

Settings come from a file, then from the environment, then from flags.
-/

namespace FlowTyping.Command

/-- What a command leaves behind: what it wrote, and whether it failed. -/
structure Console where
  out : Text := ""
  /-- The message of the error that ended it. -/
  error : Option Text := none
  deriving DecidableEq, Repr

/-- The exit code. -/
def Console.exit (c : Console) : Nat := if c.error.isSome then 1 else 0

/-- The flags of all commands that are known before the command is. -/
def commonFlags : List Flag :=
  [{ name := "debug", letter := some 'd', kind := .bool },
    { name := "config", letter := some 'c', kind := .text },
    { name := "workers", kind := .int },
    { name := "max-nodes", kind := .int },
    { name := "no-color", kind := .bool }]

/-- The flags of all commands. -/
def globalFlags : List Flag := { name := "help", letter := some 'h', kind := .bool } :: commonFlags

/-- The flags of a command line without a command. -/
def bareFlags : List Flag := { name := "version", letter := some 'v', kind := .bool } :: globalFlags

/-- The version of the program. -/
def version : String := "narrow version v0.1.0\n"

/-- The commands. -/
inductive Verb where
  | check
  | dump
  | serve
  deriving DecidableEq, Repr

namespace Verb

def ofText? : String → Option Verb
  | "check" => some .check
  | "dump" => some .dump
  | "serve" => some .serve
  | _ => none

/-- The flags of a command. -/
def flags : Verb → List Flag
  | .check => { name := "json", kind := .bool } :: { name := "strict", kind := .bool } :: globalFlags
  | .dump => { name := "raw", kind := .bool } :: globalFlags
  | .serve => { name := "framing", kind := .text } :: { name := "retain", kind := .int } :: globalFlags

/-- What is wrong with the number of arguments. -/
def argsFault? (v : Verb) (args : List String) : Option String :=
  match v, args with
  | .serve, [] => none
  | .serve, arg :: _ => some ("unknown command " ++ Text.quoteText arg ++ " for \"narrow serve\"")
  | _, [] => some "requires at least 1 arg(s), only received 0"
  | _, _ => none

end Verb

/-- The words that name a command; the last one writes scripts for shells. -/
def names : List String := ["check", "dump", "serve", "completion"]

/-- Whether a word may have been meant for a name: it begins the name, or two changes make the name
of it. Case does not matter. -/
def resembles (word name : String) : Bool :=
  let word := Text.encode (word.map Char.toLower)
  let name := Text.encode name
  word.isPrefixOf name || Text.distance word name ≤ 2

/-- What is said of a word that names no command. -/
def unknownCommand (word : String) : String :=
  let meant := names.filter (resembles word)
  "unknown command " ++ Text.quoteText word ++ " for \"narrow\"" ++
    if meant.isEmpty then ""
    else "\n\nDid you mean this?\n" ++ String.join (meant.map fun name => "\t" ++ name ++ "\n")

variable {m : Type → Type} [Monad m] [Disk m]

/-- The settings that flags ask for. -/
def applyFlags (p : Parsed) (s : Settings) : Settings :=
  { s with
    workers := (p.int? "workers").getD s.workers
    maxNodes := (p.int? "max-nodes").getD s.maxNodes
    strict := (p.bool? "strict").getD s.strict }

/-- The settings of a run. -/
def settings (env : List (String × String)) (p : Parsed) : m (Except SettingsError Settings) := do
  let loaded ← match (p.text? "config").filter (!·.isEmpty) with
    | some path => Settings.load path
    | none => pure ((← Settings.find ".").map (·.2))
  return loaded.bind finish
where
  finish (s : Settings) : Except SettingsError Settings := do
    let (s, error) := s.withEnv env
    match error with
    | some e => throw e
    | none =>
      let s := applyFlags p s
      match s.flaw? with
      | some flaw => throw (.flawed none flaw)
      | none => return s

/-- Analyses a program file. -/
def checkFile (s : Settings) (runId path : String) : m (Except Text Report) := do
  match ← Program.load s path with
  | .error e => return .error e.message
  | .ok (p, u) => return (p.report runId s u).mapError (·.message)

/-- Analyses files one after the other; the first error ends it. Counts the files that failed. -/
def checkFiles (s : Settings) (json : Bool) (runId : Nat → String) :
    (number failed : Nat) → (out : Text) → List String → m (Nat × Console)
  | _, failed, out, [] => return (failed, { out })
  | number, failed, out, path :: rest => do
    match ← checkFile s (runId number) path with
    | .error e => return (0, { out, error := some e })
    | .ok r =>
      let text : Text := if json then r.document.render ++ "\n" else r.text false
      checkFiles s json runId (number + 1) (if r.failed then failed + 1 else failed) (out ++ text) rest

/-- Reports on program files. -/
def check (s : Settings) (p : Parsed) (runId : Nat → String) : m Console := do
  let (failed, console) ← checkFiles s ((p.bool? "json").getD false) runId 1 0 "" p.args
  if failed = 0 then return console
  else
    return { console with
      error := some
        ("check failed: " ++ toString failed ++ " of " ++ toString p.args.length ++ " files") }

/-- The bodies that are asked for by name; all if none is. -/
def chosenBodies (path : String) (r : Report) (names : List String) :
    Except Text (List BodyReport) :=
  if names.isEmpty then .ok r.bodies
  else
    names.mapM fun name =>
      match r.body? name with
      | some b => .ok b
      | none => .error (path ++ " has no function " ++ Text.quoteText name)

/-- Shows bodies of a program file. -/
def dump (s : Settings) (p : Parsed) (runId : Nat → String) : m Console := do
  match p.args with
  | [] => return {}
  | path :: names =>
    match ← checkFile s (runId 1) path with
    | .error e => return { error := some e }
    | .ok r =>
      match chosenBodies path r names with
      | .error e => return { error := some e }
      | .ok bodies => return { out := .concat (bodies.map (·.dump false)) }

/-- Checks how requests are to be framed. -/
def serve (p : Parsed) : Console :=
  let framing := (p.text? "framing").getD "line"
  if framing = "line" || framing = "header" then {}
  else { error := some ("unknown framing " ++ Text.quoteText framing ++ " (want line or header)") }

/-- Runs a command line without a command. -/
def bare (words : List String) : Console :=
  match parse bareFlags words with
  | .error e => { error := some e.message }
  | .ok p =>
    if (p.bool? "version").getD false && !(p.bool? "help").getD false then { out := version } else {}

/-- Runs a command line. `runId` gives each analysis its identifier. -/
def run (env : List (String × String)) (runId : Nat → String) (words : List String) : m Console := do
  match splitCommand commonFlags words with
  | none => return bare words
  | some (name, words) =>
    match Verb.ofText? name with
    | none => return { error := some (unknownCommand name) }
    | some verb =>
      match parse verb.flags words with
      | .error e => return { error := some e.message }
      | .ok p =>
        if (p.bool? "help").getD false then return {}
        else
          match verb.argsFault? p.args with
          | some e => return { error := some e }
          | none =>
            match ← settings env p with
            | .error e => return { error := some e.message }
            | .ok s =>
              match verb with
              | .check => check s p runId
              | .dump => dump s p runId
              | .serve => return serve p

end FlowTyping.Command
