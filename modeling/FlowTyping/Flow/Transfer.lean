import FlowTyping.Flow.Graph
import FlowTyping.Guard.Exhaustive
import FlowTyping.Overload.Resolve

/-!
# What a node does to an environment

`transfer` takes the environment in which a node is entered to the environments that leave it, one
for each successor slot. A slot without one is dead: the guard or the case cannot hold there.

Declarations without a written type extend the table of declared types as they are met, so the table is
part of what goes in and comes out.
-/

namespace FlowTyping

/-- The functions that calls may name, with their overloads. -/
abbrev Catalogue := List (String × OverloadSet)

/-- What is known outside of a function body. -/
structure Surroundings where
  catalogue : Catalogue := []
  preds : Predicates := []

/-- What comes of entering a node. -/
structure Outcome where
  /-- The environment that leaves each slot; `none` for a dead one. -/
  outs : List (Option Env)
  /-- The declared types, with those that the node adds. -/
  declared : Env
  findings : List Finding := []
  call : Option CallResult := none
  cases : Option CaseSplit := none
  /-- Whether a guard or case could not narrow. -/
  degraded : Bool := false

namespace Graph

open TypeStore

variable {m : Type → Type} [TypeStore m]

/-- The type of a variable on a way that never assigned it. -/
def unbound (declared : Env) (name : String) : Ty := (declared.find? name).getD .undefined

/-- The type of a variable as a value: bound, declared, or a plain function of the catalogue. -/
def varType (s : Surroundings) (declared env : Env) (name : String) : m Ty :=
  match env.find? name with
  | some t => pure t
  | none =>
    match declared.find? name with
    | some t => pure t
    | none =>
      match s.catalogue.lookup name with
      | some set =>
        match set.overloaded, set.signatures with
        | false, sig :: _ => sig.toType
        | _, _ => pure .unknown
      | none => pure .unknown

/-- The type of a value. -/
def valueType (s : Surroundings) (declared env : Env) : Value → m Ty
  | .const t => pure t
  | .var name => varType s declared env name
  | .field owner prop => do
    let base ← varType s declared env owner
    match ← propertyOf base prop with
    | none => return .unknown
    | some p => if p.optional then union [p.type, .undefined] else return p.type

/-- The declared type of a variable that is declared by its first value. -/
def widenLiterals (t : Ty) : m Ty := union (t.members.map Ty.widened)

/-- Binds a variable: the environment, the declared types and what is wrong with it. A value that does
not fit leaves the declared type in its place. -/
def assign (declared env : Env) (name : String) (t : Ty) (infers : Bool) :
    m (Env × Env × List Finding) := do
  let declared ←
    if infers then
      let d ← widenLiterals t
      match declared.find? name with
      | some old => pure (declared.bind name (← join old d))
      | none => pure (declared.bind name d)
    else pure declared
  match declared.find? name with
  | none => return (env.bind name t, declared, [])
  | some d =>
    if ← subtype t d then return (env.bind name (← meet t d), declared, [])
    else return (env.bind name d, declared, [.assignability name t d])

/-- The function that a name calls: a variable of function type, or one of the catalogue. -/
def callee? (s : Surroundings) (env : Env) (name : String) : Option OverloadSet :=
  match env.find? name with
  | some (.function params ret) => some (.single name { params, ret })
  | _ => s.catalogue.lookup name

/-- Resolves a call. -/
def resolveCall (s : Surroundings) (declared env : Env) (site : CallSite) : m CallResult := do
  let args ← site.args.mapM (valueType s declared env)
  match callee? s env site.callee with
  | some set => set.resolve args site.typeArgs
  | none =>
    return { callee := site.callee, args, chosen := none, ret := .unknown,
             findings := [.noMatch site.callee args []] }

/-- The finding of a result that does not fit the declared type. -/
def checkReturn (returns : Option Ty) (t : Ty) : m (List Finding) := do
  match returns with
  | none => return []
  | some r => if ← subtype t r then return [] else return [.assignability "return value" t r]

/-- The environment with a variable narrowed; `none` if nothing is left of it. -/
def narrowed (env : Env) (name : String) (t : Ty) : Option Env :=
  if t.isNever then none else some (env.bind name t)

/-- Enters a node. -/
def transfer (s : Surroundings) (returns : Option Ty) (declared : Env) (op : Op) (env : Env) :
    m Outcome := do
  match op with
  | .entry | .merge => return { outs := [some env], declared }
  | .assign name value declare ascribed =>
    let t ← valueType s declared env value
    let (env, declared, findings) ←
      assign declared env name t (declare && ascribed.isNone)
    return { outs := [some env], declared, findings }
  | .call site =>
    let result ← resolveCall s declared env site
    match site.result with
    | none =>
      return { outs := [some env], declared, findings := result.findings, call := some result }
    | some name =>
      let (env, declared, findings) ← assign declared env name result.ret site.declare
      return { outs := [some env], declared, findings := result.findings ++ findings,
               call := some result }
  | .branch none => return { outs := [some env, some env], declared }
  | .branch (some g) =>
    let current := (env.find? g.target).getD (unbound declared g.target)
    let split ← g.narrow s.preds (some env.find?) current
    return { outs := [narrowed env g.target split.yes, narrowed env g.target split.no], declared,
             degraded := split.degraded }
  | .switch site =>
    let subject := (env.find? site.var).getD (unbound declared site.var)
    let split ← Guard.splitCases s.preds site.prop subject site.cases
    let findings := if site.hasDefault then [] else (Guard.missingCases split).toList
    return { outs := split.cases.map (narrowed env site.var) ++ [narrowed env site.var split.residual]
             declared, findings, cases := some split, degraded := split.degraded }
  | .ret value =>
    let t ← match value with
      | some v => valueType s declared env v
      | none => pure .undefined
    return { outs := [], declared, findings := ← checkReturn returns t }
  | .exit => return { outs := [], declared, findings := ← checkReturn returns .undefined }
  | .throw _ => return { outs := [], declared }
  | .other _ => return { outs := [none], declared }

end Graph
end FlowTyping
