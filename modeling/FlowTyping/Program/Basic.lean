import FlowTyping.Disk
import FlowTyping.Program.Steps
import FlowTyping.Report.Basic
import FlowTyping.Settings.Basic
import FlowTyping.Yaml.Reader

/-!
# Programs

A program is loaded from a document: classes first, then type aliases, each of which may only name
earlier ones, then functions in the order of their names, and last the bodies to analyse. All types of a
program live in one universe.

* `Program.ofText` loads a program from a text, `Program.load` from a file.
* `Program.analyze` runs a pass over each of its bodies.
-/

namespace FlowTyping

/-- A loaded program. -/
structure Program where
  path : String
  aliases : List (String × Ty) := []
  functions : Catalogue := []
  preds : Predicates := []
  graphs : List Graph := []

namespace Program

open Load (fail within)

/-- What sources in the program may name. -/
def reader (p : Program) : Notation.Reader := { scope := p.aliases, preds := p.preds }

/-- The graph of the first body of a name. -/
def graph? (p : Program) (name : String) : Option Graph := p.graphs.find? (·.name == name)

/-- The document of a text; a text with nothing in it is an empty one. -/
def document (text : String) : Except LoadError Yaml.Document :=
  match Yaml.read text with
  | .error _ => .error { places := [.decode], cause := .malformed }
  | .ok none => .ok { root := .empty 1, size := 1 }
  | .ok (some d) => .ok d

/-- A document, decoded. -/
def decode (d : Yaml.Document) : Except LoadError ProgramSource :=
  let wrong (places : List Place) (cause : LoadCause) : Except LoadError ProgramSource :=
    .error { places := .decode :: places, cause }
  match (Decode.program d.root).runOn d with
  | .error .malformed => wrong [] .malformed
  | .error (.unknown line word) => wrong [.line line] (.unknownStep word)
  | .error (.shape line) => wrong [.line line] .stepShape
  | .ok (_, true) => wrong [] .malformed
  | .ok (source, false) => .ok source

/-- The entries of a part of the document that must be a mapping. -/
def entriesOf (what : String) : Option Yaml.Node → Except LoadError (List (Yaml.Node × Yaml.Node))
  | none => .ok []
  | some (.mapping _ entries) => .ok entries
  | some n => .error { places := [.line n.line], cause := .notMapping what }

/-- The properties that a class declares. -/
def classProps (p : Program) (source : Text) : Load InUniverse (List (Property Ty)) := do
  if source.isEmpty then return []
  else
    match ← Load.source p.reader.readType source with
    | .object _ props => return props
    | t => fail (.propsNotObject t)

/-- Declares a class. -/
def addClass (p : Program) (d : Yaml.Document) (key node : Yaml.Node) : Load InUniverse Unit := do
  let name := key.text
  let source ← match (Decode.classSource node).runOn d with
    | .ok (source, false) => pure source
    | _ => within (.line node.line) (within (.class name) (fail .malformed))
  let props ← within (.line node.line) (within (.class name) (p.classProps source.props))
  match ← (InUniverse.declareClass name source.parents props : InUniverse _) with
  | .ok _ => return ()
  | .error e => within (.line key.line) (fail (.class e))

variable {m : Type → Type} [TypeStore m]

/-- Declares a type alias. -/
def addAlias (p : Program) (key node : Yaml.Node) : Load m Program := do
  let name := key.text
  if (p.aliases.lookup name).isSome then within (.line key.line) (fail (.typeTwice name))
  else
    let t ← within (.line node.line) (within (.type name) (Load.source p.reader.readType node.text))
    return { p with aliases := (name, t) :: p.aliases }

/-- Reads overloads, the first of which has this number. -/
def overloads (r : Notation.Reader) : (number : Nat) → List Text → Load m (List Signature)
  | _, [] => return []
  | number, source :: rest => do
    let sig ← within (.overload number) (Load.source r.readSignature source)
    return sig :: (← overloads r (number + 1) rest)

/-- The overloads of a function. -/
def overloadSet (r : Notation.Reader) (name : String) (f : FunctionSource) : Load m OverloadSet := do
  match f.signature.nonEmpty?, f.overloads with
  | some _, _ :: _ => fail .bothForms
  | some sig, [] => return .single name (← Load.source r.readSignature sig)
  | none, [] => fail .noSignature
  | none, sources =>
    if f.implementation.isEmpty then fail .noImplementation
    else
      let sigs ← overloads r 1 sources
      let impl ← within .implementation (Load.source r.readSignature f.implementation)
      match ← (OverloadSet.build name sigs impl : m _) with
      | .ok set => return set
      | .error e => fail (.overload e)

/-- The type parameters of a signature by name, the last one first. -/
def typeParams (sig : Signature) : List (String × Ty) :=
  (sig.typeParams.map fun v => (v.varName, v)).reverse

/-- What a function says of its argument, written `param is Type`. -/
def predicateDecl (r : Notation.Reader) (sig : Signature) (text : Text) : Load m PredicateDecl := do
  match text.trim.cut " is " with
  | none => fail (.predicateForm text)
  | some (param, type) =>
    let param := param.trim.toString
    match sig.params.findIdx? (·.name == param) with
    | none => fail (.noParameter param)
    | some position =>
      let t ← Load.source ({ r with vars := typeParams sig } : Notation.Reader).readType type
      return { position, narrows := t }

/-- Declares a function. -/
def addFunction (p : Program) (name : String) (f : FunctionSource) : Load m Program :=
  within (.function name) do
    let set ← overloadSet p.reader name f
    let p := { p with functions := (name, set) :: p.functions }
    match f.predicate.nonEmpty? with
    | none => return p
    | some text =>
      let decl ← within .predicate (predicateDecl p.reader set.implementation text)
      return { p with preds := (name, decl) :: p.preds }

/-- Adds a body. It can be called by its name, unless a function of that name is declared. -/
def addBody (p : Program) (b : BodySource) : Load m Program :=
  within (.body b.name) do
    if b.name.isEmpty then fail .noName
    else
      let sig ← Load.source p.reader.readSignature b.signature
      let p :=
        if (p.functions.lookup b.name).isSome then p
        else { p with functions := (b.name, .single b.name sig) :: p.functions }
      let body ← Step.resolveAll p.reader (typeParams sig) b.body
      match Graph.ofBody b.name sig.params (some sig.ret) body with
      | .ok g => return { p with graphs := p.graphs ++ [g] }
      | .error e => fail (.build e)

/-- Loads a decoded document. -/
def ofSource (path : String) (d : Yaml.Document) (source : ProgramSource) : Load InUniverse Program := do
  let start : Program := { path }
  let classes ← entriesOf "classes" source.classes
  classes.forM fun (key, node) => start.addClass d key node
  let types ← entriesOf "types" source.types
  let p ← types.foldlM (fun p (key, node) => p.addAlias key node) start
  let functions := source.functions.mergeSort fun a b => decide (a.1 ≤ b.1)
  let p ← functions.foldlM (fun p (name, f) => p.addFunction name f) p
  source.bodies.foldlM (fun p b => p.addBody b) p

/-- Loads a program from a text. The path only labels it. -/
def ofText (path text : String) : InUniverse (Except LoadError Program) :=
  match document text with
  | .error e => return .error e
  | .ok d =>
    match decode d with
    | .error e => return .error e
    | .ok source => (ofSource path d source).run

/-- The bodies and what they may call. -/
def surroundings (p : Program) : Surroundings := { catalogue := p.functions, preds := p.preds }

/-- Runs a pass over each body. -/
def analyze (p : Program) (runId : String) (s : Settings) : m (Except Graph.PassError Report) :=
  Report.analyze runId p.path s.strict p.surroundings s.limits false (p.graphs.map .graph)

/-- The report on a program whose types live in a universe. -/
def report (p : Program) (runId : String) (s : Settings) (u : Universe) :
    Except Graph.PassError Report :=
  ((p.analyze runId s : InUniverse _).run u).1

/-- Reads and loads a program file, and gives the universe that its types live in. -/
def load {n : Type → Type} [Monad n] [Disk n] (s : Settings) (path : String) :
    n (Except LoadError (Program × Universe)) := do
  match ← Disk.read path with
  | .error e => return .error { cause := .unreadable path e }
  | .ok text =>
    let (result, u) := (ofText path text).run s.newUniverse
    return (result.mapError (LoadError.within (.file path))).map fun p => (p, u)

end Program
end FlowTyping
