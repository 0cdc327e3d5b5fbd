import FlowTyping.Program.Basic
import FlowTyping.Report.Document
import FlowTyping.Report.RunId
import FlowTyping.Report.Text
import FlowTyping.Text.Fold

/-!
# The analysis service

A service analyses programs on request and answers questions about its reports, which it names by
their run identifiers. It keeps a bounded number of reports and forgets the one that was not asked for
the longest time.

* `narrow/analyze` analyses a program that comes with the request or is read from a file.
* `narrow/typeAt` gives the type of a variable on entry to a node.
* `narrow/dump` shows a body with what is known at its nodes.
-/

namespace FlowTyping

/-- Why a request has no result. -/
inductive RequestFault where
  | unknownMethod
  /-- The parameters are neither a list nor an object. -/
  | notStructured
  | noParams
  /-- The parameters are not of the form that the method takes. -/
  | undecodable
  | noPath
  | load (error : LoadError)
  | analysis (error : Graph.PassError)
  | unknownRun (runId : String)
  | noFunction (runId function : String)
  | noNode (function : String) (node : Int)

namespace RequestFault

/-- The number of a fault in the protocol of requests. -/
def code : RequestFault → Int
  | .notStructured => -32600
  | .unknownMethod => -32601
  | .analysis _ => -32603
  | _ => -32602

/-- What is said of a fault; nothing is if its text belongs to the format of requests or documents. -/
def message? : RequestFault → Option Text
  | .unknownMethod | .notStructured | .undecodable => none
  | .noParams => some "missing parameters"
  | .noPath => some "missing path"
  | .load { cause := .malformed, .. } => none
  | .load error => some error.message
  | .analysis error => some error.message
  | .unknownRun runId => some ("unknown run " ++ Text.quoteText runId)
  | .noFunction runId function =>
    some ("run " ++ runId ++ " has no function " ++ Text.quoteText function)
  | .noNode function node => some ("function " ++ function ++ " has no node " ++ toString node)

end RequestFault

/-- The parameters of a request. -/
structure Params where
  fields : List (String × JsonValue)

namespace Params

variable {α : Type}

/-- The parameters of a request must be an object. -/
def ofJson : Option JsonValue → Except RequestFault Params
  | none | some .null => .error .noParams
  | some (.object fields) => .ok { fields }
  | some _ => .error .undecodable

/-- The values of a parameter, which is named whatever the case; an absent one has none, and a null is
none. -/
def values (p : Params) (name : String) : List JsonValue :=
  p.fields.filterMap fun
    | (_, .null) => none
    | (key, v) => if Text.isNamed name key then some v else none

/-- The value of a parameter: the last one that is given, if all of them have its form. -/
def read (form : JsonValue → Option α) (default : α) (p : Params) (name : String) :
    Except RequestFault α :=
  match (p.values name).mapM form with
  | some found => .ok (found.getLastD default)
  | none => .error .undecodable

/-- A text; a missing one is empty. -/
def text : Params → String → Except RequestFault String :=
  read (fun | .text t => some t.toString | _ => none) ""

-- a power of whole numbers is the core one, whatever algebra is in scope
attribute [local instance (1100)] instPowNat

/-- A whole number of 64 bits; a missing one is zero. -/
def int : Params → String → Except RequestFault Int :=
  read (fun | .int n => if -2 ^ (63 : Nat) ≤ n && n < 2 ^ (63 : Nat) then some n else none | _ => none) 0

end Params

/-- A service with the reports it keeps. -/
structure Service where
  settings : Settings
  /-- Number of reports kept. -/
  retain : Nat
  /-- The identifier of each analysis by its number. -/
  runId : Nat → String
  /-- The reports, the one asked for last first. -/
  reports : List Report := []
  /-- Number of analyses made. -/
  runs : Nat := 0

namespace Service

/-- The number of reports that a service keeps unless told otherwise. -/
def defaultRetain : Nat := 16

/-- A service without reports; none or a negative number to keep stands for the default. -/
def start (settings : Settings) (retain : Int) (runId : Nat → String) : Service :=
  { settings, retain := if retain ≤ 0 then defaultRetain else retain.toNat, runId }

/-- Keeps a report in the first place. -/
def keep (s : Service) (r : Report) : Service :=
  { s with reports := (r :: s.reports.filter (·.runId ≠ r.runId)).take s.retain }

/-- The report of a run, which counts as asking for it. -/
def ask (s : Service) (runId : String) : Option Report × Service :=
  match s.reports.find? (·.runId == runId) with
  | some r => (some r, s.keep r)
  | none => (none, s)

/-- The report on a body of a run. -/
def bodyOf (s : Service) (runId function : String) :
    Except RequestFault (Report × BodyReport) × Service :=
  match s.ask runId with
  | (none, s) => (.error (.unknownRun runId), s)
  | (some r, s) =>
    match r.body? function with
    | none => (.error (.noFunction runId function), s)
    | some b => (.ok (r, b), s)

/-- Analyses a loaded program. -/
def analyzeProgram (s : Service) (p : Program) (u : Universe) :
    Except RequestFault JsonValue × Service :=
  let s := { s with runs := s.runs + 1 }
  match p.report (s.runId s.runs) s.settings u with
  | .error e => (.error (.analysis e), s)
  | .ok report => (.ok report.document, s.keep report)

variable {m : Type → Type} [Monad m] [Disk m]

/-- Loads a program: from its source if there is one, else from its file. -/
def loadProgram (s : Service) (path source : String) :
    m (Except LoadError (Program × Universe)) := do
  if source.isEmpty then Program.load s.settings path
  else
    let (result, u) := (Program.ofText path source).run s.settings.newUniverse
    return result.map fun p => (p, u)

/-- Answers `narrow/analyze`. -/
def analyze (s : Service) (params : Params) : m (Except RequestFault JsonValue × Service) := do
  match params.text "path", params.text "source" with
  | .ok path, .ok source =>
    if path.isEmpty then return (.error .noPath, s)
    else
      match ← s.loadProgram path source with
      | .error e => return (.error (.load e), s)
      | .ok (p, u) => return s.analyzeProgram p u
  | _, _ => return (.error .undecodable, s)

/-- Answers `narrow/typeAt`. -/
def typeAt (s : Service) (params : Params) : Except RequestFault JsonValue × Service :=
  match params.text "run_id", params.text "function", params.int "node", params.text "var" with
  | .ok runId, .ok function, .ok node, .ok var =>
    match s.bodyOf runId function with
    | (.error e, s) => (.error e, s)
    | (.ok (r, b), s) =>
      if b.pass?.isNone || !b.body.hasNode node then (.error (.noNode function node), s)
      else
        match r.typeAt? function node var with
        | some t => (.ok (.object [("reachable", .bool true), ("type", .text t.render)]), s)
        | none => (.ok (.object [("reachable", .bool (b.envAt? node).isSome)]), s)
  | _, _, _, _ => (.error .undecodable, s)

/-- Answers `narrow/dump`. -/
def dump (s : Service) (params : Params) : Except RequestFault JsonValue × Service :=
  match params.text "run_id", params.text "function" with
  | .ok runId, .ok function =>
    match s.bodyOf runId function with
    | (.error e, s) => (.error e, s)
    | (.ok (_, b), s) => (.ok (.object [("text", .text (b.dump false))]), s)
  | _, _ => (.error .undecodable, s)

/-- Answers a request. -/
def handle (s : Service) (method : String) (params : Option JsonValue) :
    m (Except RequestFault JsonValue × Service) := do
  let withParams (answer : Params → m (Except RequestFault JsonValue × Service)) :
      m (Except RequestFault JsonValue × Service) :=
    match Params.ofJson params with
    | .ok params => answer params
    | .error e => return (.error e, s)
  if !params.all isStructured then return (.error .notStructured, s)
  else
    match method with
    | "narrow/analyze" => withParams s.analyze
    | "narrow/typeAt" => withParams fun params => return s.typeAt params
    | "narrow/dump" => withParams fun params => return s.dump params
    | _ => return (.error .unknownMethod, s)
where
  /-- Whether parameters have parts, or there are none. -/
  isStructured : JsonValue → Bool
    | .null | .list _ | .object _ => true
    | _ => false

end Service
end FlowTyping
