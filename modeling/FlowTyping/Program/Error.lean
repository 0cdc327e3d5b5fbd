import FlowTyping.Flow.Builder
import FlowTyping.Notation.Resolve
import FlowTyping.Overload.Basic

/-!
# Why a program cannot be loaded

An error is a cause inside of places, from the outermost to the innermost; its message names them in
that order.
-/

namespace FlowTyping

/-- A place in a program, as errors name it. -/
inductive Place where
  | file (path : String)
  /-- The document itself, before anything in it is read. -/
  | decode
  | line (number : Nat)
  | type (name : String)
  | class (name : String)
  | function (name : String)
  | overload (number : Nat)
  | implementation
  | predicate
  | body (name : String)
  | clause (number : Nat)
  deriving DecidableEq, Repr

def Place.render : Place → String
  | .file path => path
  | .decode => "decode"
  | .line number => "line " ++ toString number
  | .type name => "type " ++ name
  | .class name => "class " ++ name
  | .function name => "function " ++ name
  | .overload number => "overload " ++ toString number
  | .implementation => "implementation"
  | .predicate => "predicate"
  | .body name => "body " ++ name
  | .clause number => "case " ++ toString number

/-- Why a file cannot be read. -/
inductive ReadError where
  | missing
  /-- A part of the path is a file. -/
  | notDirectory
  | directory
  /-- The path or a part of it is longer than paths can be. -/
  | tooLong
  /-- The path holds a character that no path has. -/
  | invalid
  deriving DecidableEq, Repr

/-- What the system says when a file of this path cannot be read. -/
def ReadError.message (path : String) : ReadError → String
  | .missing => "open " ++ path ++ ": no such file or directory"
  | .notDirectory => "open " ++ path ++ ": not a directory"
  | .directory => "read " ++ path ++ ": is a directory"
  | .tooLong => "open " ++ path ++ ": file name too long"
  | .invalid => "open " ++ path ++ ": invalid argument"

/-- What is wrong with a program. -/
inductive LoadCause where
  | unreadable (path : String) (error : ReadError)
  /-- The document is malformed, or one of its values has the wrong shape. -/
  | malformed
  | unknownStep (word : String)
  | stepShape
  | notMapping (what : String)
  | typeTwice (name : String)
  | propsNotObject (got : Ty)
  | class (error : ClassError)
  | source (error : Notation.SourceError)
  | bothForms
  | noImplementation
  | noSignature
  | overload (error : IncompatibleOverload)
  | predicateForm (text : Text)
  | noParameter (name : String)
  | noName
  | noKeyword
  | mixedKeywords (keywords : List String)
  | noValue (name : String)
  | build (error : BuildError)

/-- The keywords that statements begin with. -/
def keywords : List String :=
  ["if", "while", "switch", "call", "let", "assign", "return", "throw", "break", "continue"]

def LoadCause.message : LoadCause → Text
  | .unreadable path error => "read program: " ++ error.message path
  | .malformed => "malformed document"
  | .unknownStep word => "unknown statement " ++ Text.quoteText word
  | .stepShape => "a statement must be a mapping or a keyword"
  | .notMapping what => what ++ " must be a mapping"
  | .typeTwice name => "type " ++ name ++ " declared twice"
  | .propsNotObject got => "props must be an object type, got " ++ got.render
  | .class error => error.message
  | .source error => error.message
  | .bothForms => "signature and overloads are exclusive"
  | .noImplementation => "overloads require an implementation signature"
  | .noSignature => "missing signature"
  | .overload error => error.message
  | .predicateForm text => "expected \"param is Type\", got " ++ Text.quoteText text
  | .noParameter name => "no parameter named " ++ name
  | .noName => "missing name"
  | .noKeyword => "statement has none of " ++ ", ".intercalate keywords
  | .mixedKeywords found => "statement mixes " ++ " and ".intercalate found
  | .noValue name => "assign " ++ name ++ ": missing value"
  | .build error => error.message

/-- A cause inside of places, the outermost first. -/
structure LoadError where
  places : List Place := []
  cause : LoadCause

namespace LoadError

def message (e : LoadError) : Text :=
  Text.joinWith ": " (e.places.map (fun p => Text.ofString p.render) ++ [e.cause.message])

/-- The error as it is seen from a place around it. -/
def within (p : Place) (e : LoadError) : LoadError := { e with places := p :: e.places }

end LoadError
end FlowTyping
