import FlowTyping.Command.Flags
import FlowTyping.Command.Run
import FlowTyping.Diagnostic.Bag
import FlowTyping.Diagnostic.Basic
import FlowTyping.Disk
import FlowTyping.Flow.Builder
import FlowTyping.Flow.Code
import FlowTyping.Flow.Env
import FlowTyping.Flow.Graph
import FlowTyping.Flow.Order
import FlowTyping.Flow.Pass
import FlowTyping.Flow.Transfer
import FlowTyping.Guard.Basic
import FlowTyping.Guard.Exhaustive
import FlowTyping.Guard.Narrow
import FlowTyping.Hierarchy
import FlowTyping.Json.Basic
import FlowTyping.Main
import FlowTyping.Notation.Ast
import FlowTyping.Notation.Grammar
import FlowTyping.Notation.Resolve
import FlowTyping.Number.Basic
import FlowTyping.Number.Decimal
import FlowTyping.Overload.Basic
import FlowTyping.Overload.Resolve
import FlowTyping.Peg.Basic
import FlowTyping.Peg.Run
import FlowTyping.Program.Basic
import FlowTyping.Program.Error
import FlowTyping.Program.Source
import FlowTyping.Program.Steps
import FlowTyping.Proofs.Diagnostic.Bag
import FlowTyping.Proofs.Flow.Arising
import FlowTyping.Proofs.Flow.Closing
import FlowTyping.Proofs.Flow.Covered
import FlowTyping.Proofs.Flow.DepthFirst
import FlowTyping.Proofs.Flow.Env
import FlowTyping.Proofs.Flow.Execution
import FlowTyping.Proofs.Flow.Headers
import FlowTyping.Proofs.Flow.History
import FlowTyping.Proofs.Flow.Indifferent
import FlowTyping.Proofs.Flow.Kept
import FlowTyping.Proofs.Flow.Layout
import FlowTyping.Proofs.Flow.Likeness
import FlowTyping.Proofs.Flow.Liveness
import FlowTyping.Proofs.Flow.Lockstep
import FlowTyping.Proofs.Flow.Order
import FlowTyping.Proofs.Flow.Potential
import FlowTyping.Proofs.Flow.Rebuilding
import FlowTyping.Proofs.Flow.Settling
import FlowTyping.Proofs.Flow.ShortCircuit
import FlowTyping.Proofs.Flow.Simulation
import FlowTyping.Proofs.Flow.Slots
import FlowTyping.Proofs.Flow.Soundness
import FlowTyping.Proofs.Flow.Step
import FlowTyping.Proofs.Flow.Sweep
import FlowTyping.Proofs.Flow.Tables
import FlowTyping.Proofs.Flow.Transfer
import FlowTyping.Proofs.Flow.Written
import FlowTyping.Proofs.Guard.Cases
import FlowTyping.Proofs.Guard.Coverage
import FlowTyping.Proofs.Guard.Exhaustive
import FlowTyping.Proofs.Guard.Kept
import FlowTyping.Proofs.Guard.Likeness
import FlowTyping.Proofs.Guard.Sides
import FlowTyping.Proofs.Guard.Values
import FlowTyping.Proofs.Notation.Levels
import FlowTyping.Proofs.Notation.Located
import FlowTyping.Proofs.Notation.Placed
import FlowTyping.Proofs.Notation.Printed
import FlowTyping.Proofs.Notation.Resolved
import FlowTyping.Proofs.Notation.Tokens
import FlowTyping.Proofs.Notation.Writable
import FlowTyping.Proofs.Number.Numeral
import FlowTyping.Proofs.Number.Rounding
import FlowTyping.Proofs.Number.Shortest
import FlowTyping.Proofs.Overload.Chosen
import FlowTyping.Proofs.Overload.Covered
import FlowTyping.Proofs.Overload.Likeness
import FlowTyping.Proofs.Peg.Fuel
import FlowTyping.Proofs.Peg.Inside
import FlowTyping.Proofs.Peg.Reading
import FlowTyping.Proofs.Relation.Bounds
import FlowTyping.Proofs.Relation.Canonical
import FlowTyping.Proofs.Relation.Careful
import FlowTyping.Proofs.Relation.Chain
import FlowTyping.Proofs.Relation.Confluence
import FlowTyping.Proofs.Relation.Contravariant
import FlowTyping.Proofs.Relation.Exclusion
import FlowTyping.Proofs.Relation.Faithful
import FlowTyping.Proofs.Relation.Follow
import FlowTyping.Proofs.Relation.Fusion
import FlowTyping.Proofs.Relation.Gauge
import FlowTyping.Proofs.Relation.Greatest
import FlowTyping.Proofs.Relation.Hereditary
import FlowTyping.Proofs.Relation.Join
import FlowTyping.Proofs.Relation.Knot
import FlowTyping.Proofs.Relation.Lineage
import FlowTyping.Proofs.Relation.Lookup
import FlowTyping.Proofs.Relation.Meet
import FlowTyping.Proofs.Relation.Monoid
import FlowTyping.Proofs.Relation.Nesting
import FlowTyping.Proofs.Relation.Order
import FlowTyping.Proofs.Relation.Ranks
import FlowTyping.Proofs.Relation.Record
import FlowTyping.Proofs.Relation.Reorder
import FlowTyping.Proofs.Relation.Reunion
import FlowTyping.Proofs.Relation.Tracking
import FlowTyping.Proofs.Relation.Transitive
import FlowTyping.Proofs.Relation.Units
import FlowTyping.Proofs.Relation.Untagged
import FlowTyping.Proofs.Report.Gathering
import FlowTyping.Proofs.Signature.Closed
import FlowTyping.Proofs.Signature.Covariant
import FlowTyping.Proofs.Signature.Inferred
import FlowTyping.Proofs.Signature.Kept
import FlowTyping.Proofs.Signature.Likeness
import FlowTyping.Proofs.Signature.Positions
import FlowTyping.Proofs.Signature.Solved
import FlowTyping.Proofs.Store.Coherent
import FlowTyping.Proofs.Store.Declaring
import FlowTyping.Proofs.Store.Effects
import FlowTyping.Proofs.Store.Ideal
import FlowTyping.Proofs.Store.Identity
import FlowTyping.Proofs.Store.Keeping
import FlowTyping.Proofs.Store.Matched
import FlowTyping.Proofs.Store.Rebuilt
import FlowTyping.Proofs.Store.Replaced
import FlowTyping.Proofs.Store.Represented
import FlowTyping.Proofs.Store.Session
import FlowTyping.Proofs.Store.Sound
import FlowTyping.Proofs.Store.Stalling
import FlowTyping.Proofs.Store.Transparent
import FlowTyping.Proofs.Store.Twins
import FlowTyping.Proofs.Store.Union
import FlowTyping.Proofs.Text.Decoding
import FlowTyping.Proofs.Text.Order
import FlowTyping.Proofs.Text.Quoting
import FlowTyping.Proofs.Text.Reading
import FlowTyping.Proofs.Text.Spelling
import FlowTyping.Proofs.Ty.Keys
import FlowTyping.Proofs.Ty.Likeness
import FlowTyping.Proofs.Ty.Lucid
import FlowTyping.Proofs.Ty.Measure
import FlowTyping.Proofs.Ty.Mirror
import FlowTyping.Proofs.Ty.Orderly
import FlowTyping.Proofs.Ty.Readable
import FlowTyping.Proofs.Ty.Vars
import FlowTyping.Relation.Answers
import FlowTyping.Relation.Basic
import FlowTyping.Relation.Disjoint
import FlowTyping.Relation.Intersect
import FlowTyping.Relation.Property
import FlowTyping.Relation.Subtype
import FlowTyping.Report.Basic
import FlowTyping.Report.Document
import FlowTyping.Report.RunId
import FlowTyping.Report.Style
import FlowTyping.Report.Text
import FlowTyping.Service
import FlowTyping.Settings.Basic
import FlowTyping.Settings.File
import FlowTyping.Settings.Level
import FlowTyping.Signature.Basic
import FlowTyping.Signature.Infer
import FlowTyping.Signature.Solve
import FlowTyping.Store.Basic
import FlowTyping.Store.Union
import FlowTyping.Terminal.Escape
import FlowTyping.Terminal.Width
import FlowTyping.Text.Base64
import FlowTyping.Text.Basic
import FlowTyping.Text.Blank
import FlowTyping.Text.Calendar
import FlowTyping.Text.Cluster
import FlowTyping.Text.EditDistance
import FlowTyping.Text.Fold
import FlowTyping.Text.Integer
import FlowTyping.Text.Mark
import FlowTyping.Text.Printable
import FlowTyping.Text.Quoted
import FlowTyping.Text.Ranges
import FlowTyping.Text.Utf8
import FlowTyping.Toml.Document
import FlowTyping.Toml.Reader
import FlowTyping.Toml.Scalar
import FlowTyping.Toml.Value
import FlowTyping.Ty.Basic
import FlowTyping.Ty.Key
import FlowTyping.Ty.Printer
import FlowTyping.Ty.Rebuild
import FlowTyping.Universe
import FlowTyping.Yaml.Cursor
import FlowTyping.Yaml.Lexer
import FlowTyping.Yaml.Node
import FlowTyping.Yaml.Reader
import FlowTyping.Yaml.Scalar
import FlowTyping.Yaml.Token
