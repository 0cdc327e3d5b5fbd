import FlowTyping.Json.Basic
import FlowTyping.Report.Basic

/-!
# Reports for tools

A report as a JSON document: what was analysed, the bodies with their sizes, and the findings with
the types that they are about in print.
-/

namespace FlowTyping

/-- What a finding is about, by name. -/
def Finding.payload : Finding → JsonValue
  | .nonExhaustive residual => .object [("residual", .text residual.render)]
  | .ambiguous callee args candidates | .noMatch callee args candidates =>
    .object
      [("args", .list (args.map fun t => .text t.render)), ("callee", .text callee),
        ("candidates", .list (candidates.map .text))]
  | .constraint typeVar lower bound =>
    .object
      [("constraint", .text bound.render), ("lower", .text lower.render), ("type_var", .text typeVar)]
  | .underconstrained typeVar => .object [("type_var", .text typeVar)]
  | .assignability target source declared =>
    .object
      [("declared", .text declared.render), ("source", .text source.render), ("target", .text target)]
  | .budget nodes limit => .object [("limit", .int limit), ("nodes", .int nodes)]

/-- A diagnostic as a document. -/
def Diagnostic.document (d : Diagnostic) : JsonValue :=
  .object
    [("code", .text d.finding.kind.code), ("severity", .text d.severity.title),
      ("location",
        .object [("function", .text d.location.function), ("node", .int d.location.node)]),
      ("message", .text d.message), ("payload", d.finding.payload)]

/-- A body as a document; a skipped one says why. -/
def BodyReport.document (b : BodyReport) : JsonValue :=
  .object <|
    [("name", .text b.body.name), ("nodes", .int (if b.pass?.isSome then b.body.size else 0)),
        ("reachable", .int b.reachable)] ++
      match b.error? with
      | some e => [("skipped", .bool true), ("error", .text e.message)]
      | none => []

/-- A report as a document. -/
def Report.document (r : Report) : JsonValue :=
  .object
    [("run_id", .text r.runId), ("path", .text r.path), ("strict", .bool r.strict),
      ("failed", .bool r.failed), ("functions", .list (r.bodies.map BodyReport.document)),
      ("diagnostics", .list (r.bag.all.map Diagnostic.document))]

end FlowTyping
