import FlowTyping.Flow.Pass

/-!
# The types that are written

What a pass computes, it computes from the types that stand in its graph and in the signatures and
predicates around it.

* **`Graph.types`**, **`Surroundings.types`** — these types.
* **`Env.types`** — the types that an environment binds variables to.
-/

namespace FlowTyping

/-- The types that are written in a guard. -/
def Guard.types : Guard → List Ty
  | .equality _ _ (.type t) => [t]
  | .discriminant _ _ value => [value]
  | _ => []

/-- The types that predicates narrow to. -/
def Predicates.types (preds : Predicates) : List Ty := preds.map (·.2.narrows)

def Value.types : Value → List Ty
  | .const t => [t]
  | _ => []

/-- The types that are written in a node. -/
def Op.types : Op → List Ty
  | .assign _ value _ ascribed => value.types ++ ascribed.toList
  | .branch (some g) => g.types
  | .call site => site.args.flatMap Value.types ++ site.typeArgs
  | .switch site => site.cases
  | .ret value | .throw value => value.toList.flatMap Value.types
  | _ => []

/-- The types that an environment binds variables to. -/
def Env.types (e : Env) : List Ty := e.bindings.map (·.2)

theorem Env.mem_types_of_find? {e : Env} {x : String} {t : Ty} (hx : e.find? x = some t) : t ∈ e.types := by
  rw [Env.find?, List.lookup_eq_some_iff] at hx
  obtain ⟨before, after, hbs, -⟩ := hx
  exact List.mem_map.2 ⟨(x, t), by simp [hbs], rfl⟩

/-- The types that are written in a graph. -/
def Graph.types (g : Graph) : List Ty :=
  g.params.map (·.type) ++ g.returns.toList ++ g.declared.types ++
    g.nodes.toList.flatMap (·.op.types)

/-- The types that are written in a signature. -/
def Signature.types (sig : Signature) : List Ty :=
  sig.typeParams ++ sig.params.map (·.type) ++ [sig.ret]

/-- The types that are written around a function body. -/
def Surroundings.types (s : Surroundings) : List Ty :=
  s.catalogue.flatMap (fun f => (f.2.signatures ++ [f.2.implementation]).flatMap Signature.types) ++
    s.preds.types

end FlowTyping
