import FlowTyping.Notation.Ast
import FlowTyping.Number.Decimal
import FlowTyping.Peg.Run

/-!
# The grammar of the type notation

One rule per construct, from whole sources (`TypeEntry`, `SignatureEntry`, …) down to identifiers,
texts and numerals. Rules are known by name, so that a source may be read from any of them and a
refusal can say inside which of them it arose.

* `Rule` lists the rules, `Rule.Value` what a match of each yields, `Body.ofRule` their expressions.
* `Rule.parse` reads a source from a rule.
-/

namespace FlowTyping.Notation

open FlowTyping.Peg

/-- The rules of the grammar. -/
inductive Rule where
  | typeEntry | signatureEntry | condEntry | exprEntry | callEntry
  | type | intersection | suffixed | primary | parens | function | params | paramList | param
  | object | propList | prop | propName | tuple | elemList | elem | literal | keyof | genericArray
  | name | signature | typeParams | typeParam
  | or | and | not | atom | typeOf | inTest | predicate | comparison | compareRight | compareOp | ref
  | expr | exprList | call | typeArgs | keyword | typeKeyword
  | ident | identPart | text | number | blanks | blanks1 | eof
  deriving DecidableEq, Repr

namespace Rule

/-- All rules, the default one first. -/
def all : List Rule :=
  [.typeEntry, .signatureEntry, .condEntry, .exprEntry, .callEntry, .type, .intersection, .suffixed,
    .primary, .parens, .function, .params, .paramList, .param, .object, .propList, .prop, .propName,
    .tuple, .elemList, .elem, .literal, .keyof, .genericArray, .name, .signature, .typeParams,
    .typeParam, .or, .and, .not, .atom, .typeOf, .inTest, .predicate, .comparison, .compareRight,
    .compareOp, .ref, .expr, .exprList, .call, .typeArgs, .keyword, .typeKeyword, .ident, .identPart,
    .text, .number, .blanks, .blanks1, .eof]

/-- The name of a rule. -/
def title : Rule → String
  | .typeEntry => "TypeEntry"
  | .signatureEntry => "SignatureEntry"
  | .condEntry => "CondEntry"
  | .exprEntry => "ExprEntry"
  | .callEntry => "CallEntry"
  | .type => "Type"
  | .intersection => "Intersection"
  | .suffixed => "Postfix"
  | .primary => "Primary"
  | .parens => "Parens"
  | .function => "Function"
  | .params => "Params"
  | .paramList => "ParamList"
  | .param => "Param"
  | .object => "Object"
  | .propList => "PropList"
  | .prop => "Prop"
  | .propName => "PropName"
  | .tuple => "Tuple"
  | .elemList => "ElemList"
  | .elem => "Elem"
  | .literal => "Literal"
  | .keyof => "Keyof"
  | .genericArray => "GenericArray"
  | .name => "Name"
  | .signature => "Signature"
  | .typeParams => "TypeParams"
  | .typeParam => "TypeParam"
  | .or => "Or"
  | .and => "And"
  | .not => "Not"
  | .atom => "Atom"
  | .typeOf => "Typeof"
  | .inTest => "In"
  | .predicate => "Predicate"
  | .comparison => "Comparison"
  | .compareRight => "CompareRight"
  | .compareOp => "CompareOp"
  | .ref => "Ref"
  | .expr => "Expr"
  | .exprList => "ExprList"
  | .call => "Call"
  | .typeArgs => "TypeArgs"
  | .keyword => "Keyword"
  | .typeKeyword => "TypeKeyword"
  | .ident => "Ident"
  | .identPart => "IdentPart"
  | .text => "String"
  | .number => "Number"
  | .blanks => "_"
  | .blanks1 => "__"
  | .eof => "EOF"

/-- The rule of a name. -/
def ofTitle? (title : String) : Option Rule := all.find? (·.title == title)

/-- What a match of a rule yields. -/
abbrev Value : Rule → Type
  | .typeEntry | .type | .intersection | .suffixed | .primary | .parens | .function | .object
  | .tuple | .literal | .keyof | .genericArray | .name => TypeExpr
  | .signatureEntry | .signature => SignatureExpr
  | .condEntry | .or | .and | .not | .atom | .typeOf | .inTest | .predicate | .comparison => CondExpr
  | .exprEntry | .expr => ValueExpr
  | .callEntry | .call => CallExpr
  | .params | .paramList => List (ParamExpr TypeExpr)
  | .param => ParamExpr TypeExpr
  | .propList => List (Property TypeExpr)
  | .prop => Property TypeExpr
  | .propName => Text
  | .compareOp | .ident => String
  | .elemList => List (ElemExpr TypeExpr)
  | .elem => ElemExpr TypeExpr
  | .typeParams => List TypeParamExpr
  | .typeParam => TypeParamExpr
  | .compareRight => RightExpr
  | .ref => RefExpr
  | .exprList => List ValueExpr
  | .typeArgs => List TypeExpr
  | .text => Text.Bytes
  | .number => Number
  | .keyword | .typeKeyword | .identPart | .blanks | .blanks1 | .eof => Unit

end Rule

/-- Expressions over the rules of this grammar. -/
abbrev Body := Peg Rule.Value

namespace Body

/-- A match of a rule. -/
def rule (r : Rule) : Body r.Value := Peg.rule r

/-- Optional blanks. -/
def ws : Body Unit := rule .blanks

/-- At least one blank. -/
def ws1 : Body Unit := rule .blanks1

def isIdentStart (c : Char) : Bool :=
  ('A' ≤ c && c ≤ 'Z') || ('a' ≤ c && c ≤ 'z') || c == '_' || c == '$'

def isIdentPart (c : Char) : Bool := isIdentStart c || ('0' ≤ c && c ≤ '9')

def isBlank (c : Char) : Bool := c == ' ' || c == '\t' || c == '\r' || c == '\n'

def digit : Body Unit := .cls "[0-9]" fun c => '0' ≤ c && c ≤ '9'

/-- One or more items with a separator between two of them. -/
def separated {α : Type} (item : Body α) (sep : Body Unit) : Body (List α) :=
  (fun (first, rest) => first :: rest) <$> .seq item (.many (ws *> sep *> ws *> item))

/-- Like `separated`, with a separator allowed after the last item. -/
def listed {α : Type} (item : Body α) (sep : Body Unit) : Body (List α) :=
  separated item sep <* .opt (ws *> sep)

/-- A list that may be missing. -/
def orEmpty {α : Type} (p : Body (List α)) : Body (List α) := (·.getD []) <$> .opt p

/-- Any of the given words, as a whole word. -/
def words (first : String) (rest : List String) : Body Unit :=
  rest.foldl (fun p w => .alt p (.lit w)) (.lit first) <* .not (rule .identPart)

/-- One member stands for itself. -/
def orSingle (make : List TypeExpr → TypeExpr) : List TypeExpr → TypeExpr
  | [t] => t
  | ts => make ts

/-- A property name after a dot. -/
def dotted : Body Text := ws *> .lit "." *> ws *> rule .propName

/-- A property name that was written, unless it is empty. -/
def nonEmpty (name : Option Text) : Option Text := name.filter (!·.isEmpty)

/-- A text in double quotes: the escapes in it may be refused. -/
def doubleQuoted : Body Text.Bytes :=
  .act (.lit "\"" *>
      .many (.cls "[^\"\\\\\\n]" (fun c => c != '"' && c != '\\' && c != '\n')
        <|> (.lit "\\" *> .any)) *> .lit "\"")
    fun span _ =>
      match Text.unquote? (span.bytes.drop 1).dropLast with
      | some bytes => (bytes, none)
      | none => ([], some .escape)

/-- A text in single quotes has no escapes. -/
def singleQuoted : Body Text.Bytes :=
  .act (.lit "'" *> .many (.cls "[^'\\n]" fun c => c != '\'' && c != '\n') *> .lit "'")
    fun span _ => ((span.bytes.drop 1).dropLast, none)

/-- A numeral; one past the largest number is refused. -/
def numeral : Body Number :=
  .act (.opt (.lit "-") *> .many1 digit *> .opt (.lit "." *> .many1 digit) *>
      .opt (.cls "[eE]" (fun c => c == 'e' || c == 'E') *>
        .opt (.cls "[+-]" fun c => c == '+' || c == '-') *> .many1 digit))
    fun span _ =>
      let shown := Text.shown span.bytes
      match Number.parse shown.toList with
      | some n => (n, none)
      | none => (.infinite false, some (.range shown))

/-- The expression of a rule. -/
def ofRule : (r : Rule) → Body r.Value
  | .typeEntry => ws *> rule .type <* ws <* rule .eof
  | .signatureEntry => ws *> rule .signature <* ws <* rule .eof
  | .condEntry => ws *> rule .or <* ws <* rule .eof
  | .exprEntry => ws *> rule .expr <* ws <* rule .eof
  | .callEntry => ws *> rule .call <* ws <* rule .eof
  | .type =>
    orSingle .union <$> (.opt (.lit "|" *> ws) *> separated (rule .intersection) (.lit "|"))
  | .intersection =>
    orSingle .inter <$> (.opt (.lit "&" *> ws) *> separated (rule .suffixed) (.lit "&"))
  | .suffixed =>
    (fun (t, dims) => dims.foldl (fun t _ => .array t) t) <$>
      .seq (rule .primary) (.many (ws *> .lit "[" *> ws *> .lit "]"))
  | .primary =>
    rule .function <|> rule .parens <|> rule .object <|> rule .tuple <|> rule .literal <|>
      rule .keyof <|> rule .genericArray <|> rule .name
  | .parens => .lit "(" *> ws *> rule .type <* ws <* .lit ")"
  | .function =>
    (fun (params, ret) => .function params ret) <$>
      .seq (rule .params) (ws *> .lit "=>" *> ws *> rule .type)
  | .params => .lit "(" *> ws *> orEmpty (rule .paramList) <* ws <* .lit ")"
  | .paramList => listed (rule .param) (.lit ",")
  | .param =>
    Peg.mapAt (fun offset (spread, name, mark, t) =>
        { name, type := t, optional := mark.isSome, rest := spread.isSome, offset }) <|
      .seq (.opt (.lit "..." *> ws)) (.seq (rule .ident <* ws)
        (.seq (.opt (.lit "?")) (ws *> .lit ":" *> ws *> rule .type)))
  | .object => .object <$> (.lit "\x7b" *> ws *> orEmpty (rule .propList) <* ws <* .lit "\x7d")
  | .propList => listed (rule .prop) (.cls "[;,]" fun c => c == ';' || c == ',')
  | .prop =>
    (fun (readonly, name, mark, t) =>
        { name, type := t, optional := mark.isSome, readonly := readonly.isSome }) <$>
      .seq (.opt (.lit "readonly" *> ws1)) (.seq (rule .propName <* ws)
        (.seq (.opt (.lit "?")) (ws *> .lit ":" *> ws *> rule .type)))
  | .propName => (Text.ofString <$> rule .ident) <|> (Text.ofList <$> rule .text)
  | .tuple => .tuple <$> (.lit "[" *> ws *> orEmpty (rule .elemList) <* ws <* .lit "]")
  | .elemList => listed (rule .elem) (.lit ",")
  | .elem =>
    Peg.mapAt (fun offset t => { type := t, rest := true, offset })
        (.lit "..." *> ws *> rule .type)
      <|> Peg.mapAt (fun offset (t, mark) => { type := t, optional := mark.isSome, offset })
        (.seq (rule .type <* ws) (.opt (.lit "?")))
  | .literal => (TypeExpr.text <$> rule .text) <|> (TypeExpr.number <$> rule .number)
  | .keyof => TypeExpr.keyof <$> (.lit "keyof" *> ws1 *> rule .suffixed)
  | .genericArray =>
    TypeExpr.array <$> (.lit "Array" *> ws *> .lit "<" *> ws *> rule .type <* ws <* .lit ">")
  | .name => Peg.mapAt (fun offset name => .name name offset) (rule .ident)
  | .signature =>
    (fun (typeParams, params, ret) => { typeParams := typeParams.getD [], params, ret }) <$>
      .seq (.opt (rule .typeParams) <* ws)
        (.seq (rule .params) (ws *> .lit "=>" *> ws *> rule .type))
  | .typeParams => .lit "<" *> ws *> listed (rule .typeParam) (.lit ",") <* ws <* .lit ">"
  | .typeParam =>
    (fun (name, bound) => { name, bound }) <$>
      .seq (rule .ident) (.opt (ws1 *> .lit "extends" *> ws1 *> rule .type))
  | .or =>
    (fun (first, rest) => rest.foldl .or first) <$>
      .seq (rule .and) (.many (ws *> .lit "||" *> ws *> rule .and))
  | .and =>
    (fun (first, rest) => rest.foldl .and first) <$>
      .seq (rule .not) (.many (ws *> .lit "&&" *> ws *> rule .not))
  | .not => (CondExpr.not <$> (.lit "!" *> ws *> rule .not)) <|> rule .atom
  | .atom =>
    (.lit "(" *> ws *> rule .or <* ws <* .lit ")") <|> ((fun _ => .unread) <$> .lit "?") <|>
      rule .typeOf <|> rule .inTest <|> rule .predicate <|> rule .comparison
  | .typeOf =>
    (fun (var, op, tag) => .typeOf var op (Text.ofList tag)) <$>
      (.lit "typeof" *> ws1 *> .seq (rule .ident <* ws) (.seq (rule .compareOp <* ws) (rule .text)))
  | .inTest =>
    (fun (prop, var) => .has (Text.ofList prop) var) <$>
      .seq (rule .text <* ws) (.lit "in" *> ws1 *> rule .ident)
  | .predicate =>
    Peg.mapAt (fun offset (fn, args) => .predicate fn args offset) <|
      .seq (rule .ident <* ws) (.lit "(" *> ws *> orEmpty (rule .exprList) <* ws <* .lit ")")
  | .comparison =>
    ((fun (ref, className) => .instanceOf ref className) <$>
        .seq (rule .ref <* ws) (.lit "instanceof" *> ws1 *> rule .ident))
      <|> ((fun (ref, op, right) => .compare ref op right) <$>
        .seq (rule .ref <* ws) (.seq (rule .compareOp <* ws) (rule .compareRight)))
      <|> (CondExpr.truthy <$> rule .ref)
  | .compareRight =>
    (RightExpr.var <$>
        (.not (rule .keyword) *> .not (rule .typeKeyword) *> rule .ident <* .not (ws *> .lit ".")))
      <|> (RightExpr.type <$> rule .type)
  | .compareOp => Peg.text (.lit "===" <|> .lit "!==" <|> .lit "==" <|> .lit "!=")
  | .ref =>
    (fun (var, prop) => { var, prop := nonEmpty prop }) <$>
      .seq (.not (rule .keyword) *> rule .ident) (.opt dotted)
  | .expr =>
    Peg.mapAt (fun offset className => .new className offset)
        (.lit "new" *> ws1 *> rule .ident <* .opt (ws *> .lit "(" *> ws *> .lit ")"))
      <|> ((fun (var, prop) =>
          match prop with
          | some prop => .field var prop
          | none => .var var) <$>
        .seq (.not (rule .keyword) *> .not (rule .typeKeyword) *> rule .ident) (.opt dotted))
      <|> (ValueExpr.const <$> rule .type)
  | .exprList => listed (rule .expr) (.lit ",")
  | .call =>
    (fun (callee, typeArgs, args) => { callee, typeArgs := typeArgs.getD [], args }) <$>
      .seq (rule .ident <* ws) (.seq (.opt (rule .typeArgs) <* ws)
        (.lit "(" *> ws *> orEmpty (rule .exprList) <* ws <* .lit ")"))
  | .typeArgs => .lit "<" *> ws *> listed (rule .type) (.lit ",") <* ws <* .lit ">"
  | .keyword => words "null" ["undefined", "true", "false"]
  | .typeKeyword =>
    words "string" ["number", "boolean", "void", "unknown", "any", "never", "keyof", "Array"]
  | .ident => Peg.text (.seq (.cls "[A-Za-z_$]" isIdentStart) (.many (rule .identPart)))
  | .identPart => .cls "[A-Za-z0-9_$]" isIdentPart
  | .text => doubleQuoted <|> singleQuoted
  | .number => numeral
  | .blanks => (fun _ => ()) <$> .many (.cls "[ \\t\\r\\n]" isBlank)
  | .blanks1 => (fun _ => ()) <$> .many1 (.cls "[ \\t\\r\\n]" isBlank)
  | .eof => .not .any

end Body

/-- The rules with their names. -/
def grammar : Grammar Rule.Value := { name := Rule.title, body := Body.ofRule }

/-- Reads a source from a rule. Only the entry rules insist on the whole source. -/
def Rule.parse (r : Rule) (source : Text.Bytes) : Except (List Fault) r.Value :=
  Peg.parse grammar r source

end FlowTyping.Notation
