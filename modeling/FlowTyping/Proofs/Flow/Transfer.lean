import FlowTyping.Proofs.Flow.Env

/-!
# What a node does, in terms of bindings

* **`Graph.always_assign`** — an assignment binds its variable.
* **`Graph.always_transfer_fits`** — a node binds its own variable only, so all variables of a pass are among
  those of the graph, in whatever universe it runs.
-/

namespace FlowTyping

/-! ## The variables of a graph -/

/-- The variables that a node can bind. -/
def Op.binds : Op → List String
  | .assign name _ _ _ => [name]
  | .branch (some g) => [g.target]
  | .call site => site.result.toList
  | .switch site => [site.var]
  | _ => []

/-- The variables that a pass can bind. -/
def Graph.vars (g : Graph) : List String :=
  g.params.map (·.name) ++ g.nodes.toList.flatMap (·.op.binds)

/-- Sorted, and binding some variables only. -/
structure Env.Fits (vars : List String) (e : Env) : Prop where
  sorted : e.Sorted
  names_subset : ∀ x ∈ e.names, x ∈ vars

namespace Env.Fits

variable {vars : List String} {e : Env} {x : String}

theorem bind (he : e.Fits vars) (hx : x ∈ vars) (t : Ty) : (e.bind x t).Fits vars := by
  refine ⟨he.sorted.bind x t, fun y hy => ?_⟩
  rcases mem_names_bind.1 hy with rfl | hy
  · exact hx
  · exact he.names_subset y hy

theorem empty (vars : List String) : ({} : Env).Fits vars := ⟨List.Pairwise.nil, by simp [names]⟩

theorem narrowed (he : e.Fits vars) (hx : x ∈ vars) {t : Ty} {out : Env}
    (ho : Graph.narrowed e x t = some out) : out.Fits vars := by
  rw [Graph.narrowed] at ho
  split at ho
  · simp at ho
  · obtain rfl := Option.some.inj ho
    exact he.bind hx t

end Env.Fits

namespace Graph

open Universe

variable {vars : List String}

/-- An assignment binds its variable, and no other. -/
theorem always_assign (declared env : Env) (name : String) (t : Ty) (infers : Bool) :
    Always (assign declared env name t infers) fun r => ∃ s, r.1 = env.bind name s := by
  have hbound (declared : Env) :
      Always (assign declared env name t false : InUniverse _) fun r => ∃ s, r.1 = env.bind name s := by
    rw [assign, if_neg Bool.false_ne_true, pure_bind]
    dsimp only
    cases declared.find? name with
    | none => exact .pure ⟨t, rfl⟩
    | some d => exact .of_all fun _ => .ite (.of_all fun met => .pure ⟨met, rfl⟩) (.pure ⟨d, rfl⟩)
  cases infers with
  | false => exact hbound declared
  | true =>
    refine .of_all fun d => ?_
    cases declared.find? name with
    | none => exact hbound _
    | some old => exact .of_all fun _ => hbound _

theorem always_assign_fits {declared env : Env} {name : String} {t : Ty} {infers : Bool} (he : env.Fits vars)
    (hn : name ∈ vars) : Always (assign declared env name t infers) fun r => r.1.Fits vars :=
  (always_assign declared env name t infers).imp fun r hr => by
    obtain ⟨s, hs⟩ := hr
    rw [hs]
    exact he.bind hn s

/-- What leaves a node fits the variables that fit what entered it and that the node binds. -/
theorem always_transfer_fits (s : Surroundings) (returns : Option Ty) (declared : Env) {op : Op} {env : Env}
    (hop : ∀ x ∈ op.binds, x ∈ vars) (he : env.Fits vars) :
    Always (transfer s returns declared op env) fun o => ∀ out, some out ∈ o.outs → out.Fits vars := by
  cases op with
  | entry | merge =>
    refine .pure fun out ho => ?_
    obtain rfl : out = env := by simpa using ho
    exact he
  | assign name value declare ascribed =>
    refine .of_all fun t => (always_assign_fits he (hop name (by simp [Op.binds]))).bind fun r hr => ?_
    obtain ⟨env', declared', findings⟩ := r
    refine .pure fun out ho => ?_
    obtain rfl : out = env' := by simpa using ho
    exact hr
  | call site =>
    refine .of_all fun result => ?_
    cases hr : site.result with
    | none =>
      refine .pure fun out ho => ?_
      obtain rfl : out = env := by simpa using ho
      exact he
    | some name =>
      refine (always_assign_fits he (hop name (by simp [Op.binds, hr]))).bind fun r hr => ?_
      obtain ⟨env', declared', findings⟩ := r
      refine .pure fun out ho => ?_
      obtain rfl : out = env' := by simpa using ho
      exact hr
  | branch g =>
    cases g with
    | none =>
      refine .pure fun out ho => ?_
      obtain rfl : out = env := by simpa using ho
      exact he
    | some g =>
      have hmem : g.target ∈ vars := hop _ (by simp [Op.binds])
      refine .of_all fun split => .pure fun out ho => ?_
      rcases (by simpa using ho : some out = _ ∨ some out = _) with ho | ho
      · exact he.narrowed hmem ho.symm
      · exact he.narrowed hmem ho.symm
  | switch site =>
    have hmem : site.var ∈ vars := hop _ (by simp [Op.binds])
    refine .of_all fun split => .pure fun out ho => ?_
    rcases List.mem_append.1 ho with ho | ho
    · obtain ⟨t, -, ho⟩ := List.mem_map.1 ho
      exact he.narrowed hmem ho
    · exact he.narrowed hmem (List.mem_singleton.1 ho).symm
  | ret value =>
    -- nothing leaves a return
    have hrest (t : Ty) : Always (do
        return { outs := [], declared, findings := ← checkReturn returns t } : InUniverse Outcome)
        fun o => ∀ out, some out ∈ o.outs → out.Fits vars := .of_all fun _ => .pure (by simp)
    cases value with
    | none => exact hrest .undefined
    | some v => exact .of_all fun t => hrest t
  | throw value => exact .pure (by simp)
  | exit => exact .of_all fun _ => .pure (by simp)
  | other kind => exact .pure (by simp)

theorem always_entryEnv_fits {params : List (Param Ty)} (hp : ∀ p ∈ params, p.name ∈ vars) {env : Env}
    (he : env.Fits vars) : Always (Pass.entryEnv params env) (Env.Fits vars) := by
  induction params generalizing env with
  | nil => exact .pure he
  | cons p ps ih =>
    have hrest (t : Ty) := ih (fun q hq => hp q (by simp [hq])) (he.bind (hp p (by simp)) t)
    rw [Pass.entryEnv]
    split
    · exact .of_all fun t => hrest t
    · exact hrest p.type

end Graph
end FlowTyping
