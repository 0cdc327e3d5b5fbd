import FlowTyping.Flow.Code
import FlowTyping.Notation.Grammar
import FlowTyping.Signature.Basic

/-!
# From notation to types

Names in a parsed source are looked up: the atoms first, then the type parameters in sight, the names
of a scope and the declared classes. What cannot be resolved is an error at an offset of the source.

* `Reader.type`, `signature`, `cond`, `value` and `call` read a whole source each.
-/

namespace FlowTyping.Notation

open TypeStore

/-- Why a source has no meaning. -/
inductive Reason where
  /-- It does not follow the grammar. -/
  | grammar (cause : Peg.Cause)
  | unknownType (name : String)
  | unknownClass (name : String)
  | restElemNotLast
  | restParamNotLast
  | restNotArray (got : Ty)
  /-- A required tuple element follows an optional one. -/
  | misplacedElem (index : Nat)
  deriving Repr

def Reason.message : Reason → Text
  | .grammar cause => cause.message
  | .unknownType name => "unknown type " ++ Text.quoteText name
  | .unknownClass name => "unknown class " ++ Text.quoteText name
  | .restElemNotLast => "rest element must be last"
  | .restParamNotLast => "rest parameter must be last"
  | .restNotArray got => "rest element must be an array type, got " ++ got.render
  | .misplacedElem index =>
    "required tuple element " ++ toString index ++ " follows an optional one"

/-- A reason and the offset at which it arose. -/
structure Located where
  offset : Nat
  reason : Reason
  deriving Repr

/-- An error in a source. -/
structure SourceError where
  source : Text.Bytes
  offset : Nat
  reason : Reason
  deriving Repr

def SourceError.message (e : SourceError) : Text :=
  Text.quote e.source ++ ": column " ++ toString (e.offset + 1) ++ ": " ++ e.reason.message

/-- What names mean to a reader of sources. -/
structure Reader where
  /-- Type parameters in sight. -/
  vars : List (String × Ty) := []
  /-- Named types. -/
  scope : List (String × Ty) := []
  preds : Predicates := []

/-- The atoms by name; `void` and `any` are other names of `undefined` and `unknown`. -/
def atomNames : List (String × Ty) :=
  [("string", .string), ("number", .number), ("boolean", .boolean), ("null", .null),
    ("undefined", .undefined), ("void", .undefined), ("unknown", .unknown), ("any", .unknown),
    ("never", .never)]

mutual
/-- The offset of the last name, element or parameter of a written type. -/
def lastOffset : TypeExpr → Option Nat
  | .name _ offset => some offset
  | .union ms => lastOffsets ms
  | .inter ms => lastOffsets ms
  | .array elem => lastOffset elem
  | .keyof of => lastOffset of
  | .object props => lastPropOffset props
  | .tuple elems => lastElemOffset elems
  | .function params ret =>
    match lastOffset ret with
    | some offset => some offset
    | none => lastParamOffset params
  | _ => none

def lastOffsets : List TypeExpr → Option Nat
  | [] => none
  | t :: ts =>
    match lastOffsets ts with
    | some offset => some offset
    | none => lastOffset t

def lastPropOffset : List (Property TypeExpr) → Option Nat
  | [] => none
  | ⟨_, t, _, _⟩ :: ps =>
    match lastPropOffset ps with
    | some offset => some offset
    | none => lastOffset t

def lastElemOffset : List (ElemExpr TypeExpr) → Option Nat
  | [] => none
  | ⟨t, _, _, own⟩ :: es =>
    match lastElemOffset es with
    | some offset => some offset
    | none =>
      match lastOffset t with
      | some offset => some offset
      | none => some own

def lastParamOffset : List (ParamExpr TypeExpr) → Option Nat
  | [] => none
  | ⟨_, t, _, _, own⟩ :: ps =>
    match lastParamOffset ps with
    | some offset => some offset
    | none =>
      match lastOffset t with
      | some offset => some offset
      | none => some own
end

namespace Reader

variable {m : Type → Type} [TypeStore m]

/-- Computations that may end in an error at an offset. -/
abbrev Resolve (m : Type → Type) := ExceptT Located m

/-- Stops with an error. -/
def fail {α : Type} (offset : Nat) (reason : Reason) : Resolve m α := throw { offset, reason }

/-- The type that a name stands for. -/
def named (r : Reader) (name : String) (offset : Nat) : Resolve m Ty := do
  if name = "true" then (literal (.bool true) : m Ty)
  else if name = "false" then (literal (.bool false) : m Ty)
  else
    match atomNames.lookup name with
    | some t => return t
    | none =>
      match r.vars.lookup name with
      | some t => return t
      | none =>
        match r.scope.lookup name with
        | some t => return t
        | none =>
          let h ← (hierarchy : m Hierarchy)
          match (h.find? name).bind (·.shape) with
          | some shape => return shape
          | none => fail offset (.unknownType name)

/-- The element type of an array that is spread. -/
def restElem (offset : Nat) : Ty → Resolve m Ty
  | .tuple [] (some rest) => pure rest
  | t => fail offset (.restNotArray t)

/-- A tuple, unless a required element follows an optional one. -/
def makeTuple (offset : Option Nat) (elems : List (Elem Ty)) (rest : Option Ty) : Resolve m Ty :=
  match firstMisplaced 0 false elems with
  | some index => fail (offset.getD 0) (.misplacedElem index)
  | none => (tuple elems rest : m Ty)

mutual
/-- The type that a written type stands for. -/
def type (r : Reader) : TypeExpr → Resolve m Ty
  | .union ms => do (union (← types r ms) : m Ty)
  | .inter ms => do (intersect (← types r ms) : m Ty)
  | .array elem => do (array (← type r elem) : m Ty)
  | .text value => (literal (.text value) : m Ty)
  | .number value => (literal (.number value) : m Ty)
  | .name name offset => named r name offset
  | .keyof of => do (keysOf (← type r of) : m Ty)
  | .object ps => do (object "" (← props r ps) : m Ty)
  | .tuple es => do
    let (elems, rest) ← elems r [] none es
    makeTuple (lastElemOffset es) elems rest
  | .function ps ret => do
    let ps ← params r false ps
    (function ps (← type r ret) : m Ty)

def types (r : Reader) : List TypeExpr → Resolve m (List Ty)
  | [] => return []
  | t :: ts => do
    let t ← type r t
    return t :: (← types r ts)

def props (r : Reader) : List (Property TypeExpr) → Resolve m (List (Property Ty))
  | [] => return []
  | ⟨name, t, optional, readonly⟩ :: ps => do
    let t ← type r t
    return ⟨name, t, optional, readonly⟩ :: (← props r ps)

/-- Elements up to a spread array, which must be the last one. -/
def elems (r : Reader) (done : List (Elem Ty)) (rest : Option Ty) :
    List (ElemExpr TypeExpr) → Resolve m (List (Elem Ty) × Option Ty)
  | [] => return (done, rest)
  | ⟨t, optional, spread, offset⟩ :: es => do
    if rest.isSome then fail offset .restElemNotLast
    else
      let t ← type r t
      if spread then elems r done (some (← restElem offset t)) es
      else elems r (done ++ [⟨t, optional⟩]) none es

/-- Parameters; none follows a rest parameter. -/
def params (r : Reader) (afterRest : Bool) :
    List (ParamExpr TypeExpr) → Resolve m (List (Param Ty))
  | [] => return []
  | ⟨name, t, optional, rest, offset⟩ :: ps => do
    if afterRest then fail offset .restParamNotLast
    else
      let t ← type r t
      if rest then
        let _ ← restElem offset t
      return ⟨name, t, optional, rest⟩ :: (← params r rest ps)
end

/-- Brings type parameters into sight one after the other. -/
def typeParams (r : Reader) : List TypeParamExpr → Resolve m (List Ty × Reader)
  | [] => return ([], r)
  | p :: ps => do
    let bound ← match p.bound with
      | some t => pure (some (← type r t))
      | none => pure none
    let v ← (typeVar p.name bound : m Ty)
    let (vs, r) ← typeParams { r with vars := (p.name, v) :: r.vars } ps
    return (v :: vs, r)

/-- The signature that a written one stands for. -/
def signature (r : Reader) (s : SignatureExpr) : Resolve m Signature := do
  let (typeParams, r) ← typeParams r s.typeParams
  let params ← params r false s.params
  let ret ← type r s.ret
  return { typeParams, params, ret }

/-- The value that a written one stands for. -/
def value (r : Reader) : ValueExpr → Resolve m Value
  | .var name => return .var name
  | .field var prop => return .field var prop
  | .new className offset => do
    let h ← (hierarchy : m Hierarchy)
    match (h.find? className).bind (·.shape) with
    | some shape => return .const shape
    | none => fail offset (.unknownClass className)
  | .const t => return .const (← type r t)

/-- The values of an argument list. -/
def values (r : Reader) : List ValueExpr → Resolve m (List Value)
  | [] => return []
  | v :: vs => do
    let v ← value r v
    return v :: (← values r vs)

/-- The test that a call of a predicate function makes: one that narrows nothing unless the function
is declared and a plain variable stands at its position. -/
def predicateTest (r : Reader) (fn : String) (args : List Value) : Cond :=
  match r.preds.find? fn with
  | none => .test none
  | some decl =>
    if decl.position < 0 then .test none
    else
      match args[decl.position.toNat]? with
      | some (.var name) => .test (some (.predicate fn decl.position name))
      | _ => .test none

/-- A test of a variable; a test of a property says nothing about the variable. -/
def variableTest (ref : RefExpr) (g : String → Guard) : Cond :=
  match ref.prop with
  | none => .test (some (g ref.var))
  | some _ => .test none

/-- The condition that a written one stands for. -/
def cond (r : Reader) : CondExpr → Resolve m Cond
  | .or left right => do
    let left ← cond r left
    return .or left (← cond r right)
  | .and left right => do
    let left ← cond r left
    return .and left (← cond r right)
  | .not c => return .not (← cond r c)
  | .unread => return .test none
  | .typeOf var op tag =>
    let test := Cond.test (some (.typeOf var tag))
    return if ((EqOp.ofText? op).map EqOp.negated).getD false then .not test else test
  | .has prop var => return .test (some (.has prop var))
  | .instanceOf ref className => return variableTest ref fun var => .instanceOf var className
  | .truthy ref => return variableTest ref .truthy
  | .compare ref op right => do
    let op := (EqOp.ofText? op).getD .strictEq
    let left : Ref := { var := ref.var, prop := ref.prop }
    match right with
    | .var name => return .test (some (.equality op left (.var name)))
    | .type t => return .test (some (.equality op left (.type (← type r t))))
  | .predicate fn args _ => return predicateTest r fn (← values r args)

/-- The call that a written one stands for. -/
def call (r : Reader) (c : CallExpr) : Resolve m CallSite := do
  let args ← values r c.args
  let typeArgs ← types r c.typeArgs
  return { callee := c.callee, args, typeArgs }

/-- Reads a source from a rule and resolves what it yields. -/
def read {α : Type} (rule : Rule) (resolve : rule.Value → Resolve m α) (source : Text.Bytes) :
    m (Except SourceError α) := do
  match rule.parse source with
  | .error faults =>
    match faults with
    | f :: _ => return .error { source, offset := f.place.offset, reason := .grammar f.cause }
    | [] => return .error { source, offset := 0, reason := .grammar (.unmatched []) }
  | .ok parsed =>
    match ← (resolve parsed).run with
    | .ok a => return .ok a
    | .error e => return .error { source, offset := e.offset, reason := e.reason }

/-- Reads a type. -/
def readType (r : Reader) (source : Text.Bytes) : m (Except SourceError Ty) :=
  read .typeEntry r.type source

/-- Reads a signature. -/
def readSignature (r : Reader) (source : Text.Bytes) : m (Except SourceError Signature) :=
  read .signatureEntry r.signature source

/-- Reads a condition. -/
def readCond (r : Reader) (source : Text.Bytes) : m (Except SourceError Cond) :=
  read .condEntry r.cond source

/-- Reads a value. -/
def readValue (r : Reader) (source : Text.Bytes) : m (Except SourceError Value) :=
  read .exprEntry r.value source

/-- Reads a call. -/
def readCall (r : Reader) (source : Text.Bytes) : m (Except SourceError CallSite) :=
  read .callEntry r.call source

end Reader
end FlowTyping.Notation
