import FlowTyping.Report.Basic
import FlowTyping.Report.Style

/-!
# Reports for people

* `Report.text` has a line for each finding and each skipped body, then a summary.
* `BodyReport.dump` shows a body's graph with what is known on entry to each node.

Every line ends in a line feed. Without colours the control sequences are taken out of the whole text, those
of names and messages too.
-/

namespace FlowTyping

/-- A number with the noun it counts. -/
def counted (n : Nat) (one many : String) : String :=
  toString n ++ " " ++ if n = 1 then one else many

/-- Styled lines as they are written out, with or without colours. -/
def writeLines (color : Bool) (lines : List Text) : Text :=
  let text := Text.unlines lines
  if color then text else Terminal.strip text

namespace Report

/-- The line of a finding. -/
def findingLine (path : String) (d : Diagnostic) : Text :=
  Style.subject.apply path ++ ":" ++ Style.location.apply d.location.render ++ ": " ++
    (Style.ofSeverity d.severity).apply d.severity.title ++ ": " ++ d.message ++ " " ++
    Style.code.apply ("[" ++ d.finding.kind.code ++ "]")

/-- What a line about a skipped body calls it. -/
def skipLabel : Graph.PassError → String
  | .flaw _ => "internal error"
  | _ => "skipped"

/-- The line of a skipped body. -/
def skipLine (path : String) (b : BodyReport) : Option Text :=
  b.error?.map fun e =>
    Style.subject.apply path ++ ":" ++ Style.location.apply b.body.name ++ ": " ++
      Style.error.apply (skipLabel e) ++ ": " ++ e.message

/-- The findings of each severity, counted. -/
def tally (bag : Bag) : Text :=
  let part (s : Severity) (one many : String) : Text :=
    (Style.ofSeverity s).apply (counted (bag.count s) one many)
  part .error "error" "errors" ++ ", " ++ part .warning "warning" "warnings" ++ ", " ++
    part .advisory "advisory" "advisories"

/-- The last line of a report. -/
def summary (r : Report) : Text :=
  let skipped := r.bodies.countP fun b => b.error?.isSome
  let verdict := if r.failed then Style.error.apply "FAIL" else Style.good.apply "ok"
  let strict := if r.strict then Style.dim.apply " (strict)" else ""
  verdict ++ strict ++ " " ++ Style.subject.apply r.path ++ ": " ++ tally r.bag ++ " in " ++
    counted r.bodies.length "function" "functions" ++
    if skipped = 0 then "" else ", " ++ toString skipped ++ " skipped"

/-- The text of a report. -/
def text (r : Report) (color : Bool) : Text :=
  let lines := r.bag.all.map (findingLine r.path) ++ r.bodies.filterMap (skipLine r.path)
  writeLines color (lines ++ (if lines.isEmpty then [] else [("" : Text)]) ++ [summary r])

end Report

namespace BodyReport

/-- What is known on entry to a node and came of it, on lines of their own. -/
def nodeNotes (p : Graph.Pass) (id : Nat) (env : Env) : List Text :=
  (env.bindings.map fun (name, t) =>
      "      " ++ Style.location.apply name ++ ": " ++ t.render) ++
    ((p.calls[id]?).map fun call =>
      match call.chosen with
      | some (index, sig) =>
        "      " ++ Style.good.apply "=>" ++ " overload " ++ toString index ++ ": " ++ sig.render
      | none =>
        "      " ++ Style.error.apply "=>" ++ " unresolved: " ++ call.ret.render).toList ++
    ((p.switches[id]?).map fun split =>
      "      " ++ Style.good.apply "=>" ++ " residual: " ++ split.residual.render).toList

/-- The lines of a node. -/
def nodeLines (r : BodyReport) (p : Graph.Pass) (id : Int) (line : Text) :
    List Text :=
  match r.envAt? id with
  | none => ["  " ++ line ++ " " ++ Style.dim.apply "(unreachable)"]
  | some env =>
    let node := id.toNat
    let degraded :=
      if p.degraded.contains node then " " ++ Style.warning.apply "(degraded)" else ""
    let visits := p.visits.getD node 0
    let visits :=
      if 1 < visits then " " ++ Style.dim.apply ("(" ++ toString visits ++ " visits)") else ""
    ("  " ++ line ++ degraded ++ visits) :: nodeNotes p node env

/-- The text of a body: its header, why it was skipped, and its nodes. -/
def dump (r : BodyReport) (color : Bool) : Text :=
  let reason : Option Text := r.error?.map fun e => Style.error.apply e.message
  writeLines color <|
    match r.pass? with
    | none => [Style.subject.apply r.body.name ++ (": " : Text) ++ reason.getD ""]
    | some p =>
      Style.subject.apply r.body.header :: (reason.map (("  " : Text) ++ ·)).toList ++
        r.body.lines.flatMap fun (id, _, line) => nodeLines r p id line

end BodyReport
end FlowTyping
