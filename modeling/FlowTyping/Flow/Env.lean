import FlowTyping.Store.Union

/-!
# Environments

An environment gives variables their types at one point of a function. Bindings are kept in the
order of the variables' names.
-/

namespace FlowTyping

/-- Variables with their types, in the order of the names. -/
structure Env where
  bindings : List (String × Ty) := []
  deriving Repr, Inhabited

namespace Env

/-- The type of a variable. -/
def find? (e : Env) (name : String) : Option Ty := e.bindings.lookup name

/-- Puts a binding into its place. -/
def insertBinding (name : String) (t : Ty) : List (String × Ty) → List (String × Ty)
  | [] => [(name, t)]
  | (n, s) :: rest =>
    if name < n then (name, t) :: (n, s) :: rest
    else if name == n then (name, t) :: rest
    else (n, s) :: insertBinding name t rest

/-- The environment with a variable bound anew. -/
def bind (e : Env) (name : String) (t : Ty) : Env :=
  { bindings := insertBinding name t e.bindings }

/-- The environment of some bindings; the last one of a name counts. -/
def ofList (bindings : List (String × Ty)) : Env :=
  bindings.foldl (fun e (name, t) => e.bind name t) {}

/-- The bound variables in order. -/
def names (e : Env) : List String := e.bindings.map (·.1)

def size (e : Env) : Nat := e.bindings.length

/-- Whether two environments bind the same variables to the same types. -/
def same (a b : Env) : Bool :=
  a.bindings.length == b.bindings.length &&
    (a.bindings.zip b.bindings).all fun ((n, s), (k, t)) => n == k && s.same t

variable {m : Type → Type} [TypeStore m]

/-- Joins the types that each variable has in several environments; where it is unbound it has the
fallback type. -/
def joinNames (envs : List Env) (fallback : String → Ty) : List String → m (List (String × Ty))
  | [] => pure []
  | name :: names => do
    let t ← TypeStore.union (envs.map fun e => (e.find? name).getD (fallback name))
    return (name, t) :: (← joinNames envs fallback names)

/-- The pointwise join of environments. A single one stays as it is. -/
def joinAll (envs : List Env) (fallback : String → Ty) : m Env :=
  match envs with
  | [e] => pure e
  | _ => do
    let all := ofList (envs.flatMap (·.bindings))
    return { bindings := ← joinNames envs fallback all.names }

end Env
end FlowTyping
