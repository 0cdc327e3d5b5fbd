import FlowTyping.Flow.Pass
import FlowTyping.Program.Error
import FlowTyping.Settings.Level
import FlowTyping.Universe

/-!
# Settings

What an analysis can be told: its limits, how strict it is, and how much it logs. Settings come from
a file, then from variables of the environment, then from the command line; `validate` says what an
analysis cannot run with.
-/

namespace FlowTyping

/-- Settings of an analysis. -/
structure Settings where
  /-- A function with more nodes is skipped; `0` for no limit. -/
  maxNodes : Int := 10000
  /-- Number of visits after which a loop header widens. -/
  maxLoopVisits : Int := Graph.defaultLoopVisits
  /-- Number of functions that may be analysed at once. -/
  workers : Int := 4
  /-- Whether warnings are failures. -/
  strict : Bool := false
  /-- Number of subtype answers that are remembered. -/
  subtypeCache : Int := defaultMemory
  logLevel : String := "info"
  deriving DecidableEq, Repr

/-- A setting that an analysis cannot run with. -/
inductive SettingsFlaw where
  | negativeNodes (got : Int)
  | fewLoopVisits (got : Int)
  | fewWorkers (got : Int)
  | negativeCache (got : Int)
  | level (fault : LogLevel.Fault)
  deriving DecidableEq, Repr

def SettingsFlaw.message : SettingsFlaw → String
  | .negativeNodes got => "max_nodes must not be negative, got " ++ toString got
  | .fewLoopVisits got => "max_loop_visits must be at least 1, got " ++ toString got
  | .fewWorkers got => "workers must be at least 1, got " ++ toString got
  | .negativeCache got => "subtype_cache_size must not be negative, got " ++ toString got
  | .level fault => "log level: " ++ fault.message

/-- Why there are no settings. -/
inductive SettingsError where
  /-- The file is malformed, or a value in it has the wrong type. -/
  | malformed (path : String)
  | unreadable (path : String) (error : ReadError)
  | unknownKeys (path : String) (keys : List String)
  /-- A flaw, with the file that it is in. -/
  | flawed (path : Option String) (flaw : SettingsFlaw)
  /-- A variable of the environment has no value of its kind. -/
  | envVariable (name reader text : String) (fault : Text.NumberFault)
  deriving DecidableEq, Repr

def SettingsError.message : SettingsError → String
  | .malformed path => "parsing " ++ path ++ ": malformed document"
  | .unreadable path error => "parsing " ++ path ++ ": " ++ error.message path
  | .unknownKeys path keys => "parsing " ++ path ++ ": unknown keys " ++ ", ".intercalate keys
  | .flawed (some path) flaw => path ++ ": " ++ flaw.message
  | .flawed none flaw => flaw.message
  | .envVariable name reader text fault => name ++ ": " ++ fault.message reader text

namespace Settings

/-- The level at which is logged; an empty one is that of information. -/
def level (s : Settings) : Except LogLevel.Fault Int :=
  if s.logLevel.isEmpty then .ok 0 else LogLevel.read s.logLevel

/-- The first setting that an analysis cannot run with. -/
def flaw? (s : Settings) : Option SettingsFlaw :=
  if s.maxNodes < 0 then some (.negativeNodes s.maxNodes)
  else if s.maxLoopVisits < 1 then some (.fewLoopVisits s.maxLoopVisits)
  else if s.workers < 1 then some (.fewWorkers s.workers)
  else if s.subtypeCache < 0 then some (.negativeCache s.subtypeCache)
  else
    match s.level with
    | .ok _ => none
    | .error fault => some (.level fault)

/-- The limits of a pass. -/
def limits (s : Settings) : Graph.Limits := .ofInts s.maxNodes s.maxLoopVisits

/-- A universe of its own for an analysis. -/
def newUniverse (s : Settings) : Universe := .new s.subtypeCache.toNat

/-- A variable of the environment that is set and not empty. -/
def envValue? (env : List (String × String)) (name : String) : Option String :=
  (env.lookup name).bind fun v => if v.isEmpty then none else some v

/-- Takes an integer from a variable of the environment. -/
def integerFrom (env : List (String × String)) (name : String) (use : Int → Settings → Settings)
    (s : Settings) : Settings × Option SettingsError :=
  match envValue? env name with
  | none => (s, none)
  | some text =>
    match Text.readInteger text with
    | .ok n => (use n s, none)
    | .error fault => (s, some (.envVariable name "strconv.Atoi" text fault))

/-- Takes a truth value from a variable of the environment. -/
def boolFrom (env : List (String × String)) (name : String) (use : Bool → Settings → Settings)
    (s : Settings) : Settings × Option SettingsError :=
  match envValue? env name with
  | none => (s, none)
  | some text =>
    match Text.readBool text with
    | .ok b => (use b s, none)
    | .error fault => (s, some (.envVariable name "strconv.ParseBool" text fault))

/-- The settings with what the environment says, as far as it can be taken, and the first error. -/
def withEnv (s : Settings) (env : List (String × String)) : Settings × Option SettingsError :=
  let (s, error) := integerFrom env "NARROW_MAX_NODES" (fun n s => { s with maxNodes := n }) s
  if error.isSome then (s, error)
  else
    let (s, error) := integerFrom env "NARROW_WORKERS" (fun n s => { s with workers := n }) s
    if error.isSome then (s, error)
    else
      let (s, error) := boolFrom env "NARROW_STRICT" (fun b s => { s with strict := b }) s
      if error.isSome then (s, error) else (s, s.flaw?.map (.flawed none))

end Settings
end FlowTyping
